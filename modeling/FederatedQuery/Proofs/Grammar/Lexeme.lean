import FederatedQuery.Grammar.Lexeme
import FederatedQuery.Proofs.Grammar.Executable
import FederatedQuery.Proofs.Grammar.Reader

/-!
Lexemes in a text: names, whole numbers and strings on one line are read back from how they are
written, whatever stands behind them, as long as it cannot be part of them.
-/
namespace FederatedQuery

def Number.InRange : Number → Prop
  | integer n => -(Nat.pow 2 63 : Int) ≤ n ∧ n < (Nat.pow 2 64 : Int)
  | double _ => True

namespace Grammar
open Reader
variable {α β : Type} {s rest : List Char}

/-! ### White space -/

def Skips (r : Reader α) : Prop := ∀ c s, isSpace c = true → r (c :: s) = r s

theorem skipped_cons_of_isSpace {c : Char} (s : List Char) (h : isSpace c = true) :
    skipped (c :: s) = skipped s := by
  rw [skipped, if_pos h]

namespace Skips
variable {r r' : Reader α}

theorem token (r : Reader α) : Skips (token r) := by
  intro c s h
  change r (skipped (c :: s)) = r (skipped s)
  rw [skipped_cons_of_isSpace s h]

theorem symbol (word : String) : Skips (symbol word) := token (literal word)

theorem bind (h : Skips r) (f : α → Reader β) : Skips (r >>= f) := by
  intro c s hc
  change (r (c :: s)).bind (fun e => f e.1 e.2) = (r s).bind fun e => f e.1 e.2
  rw [h c s hc]

theorem orElse (h : Skips r) (h' : Skips r') : Skips (r <|> r') := by
  intro c s hc
  change (r (c :: s) <|> r' (c :: s)) = (r s <|> r' s)
  rw [h c s hc, h' c s hc]

/-- What is left in front by an optional reader is skipped behind it. -/
theorem maybe_bind (h : Skips r) {f : Option α → Reader β} (hf : Skips (f none)) :
    Skips (maybe r >>= f) := by
  intro c s hc
  cases hr : r s with
  | none =>
    rw [bind_of_some (maybe_of_none hr), bind_of_some (maybe_of_none (by rw [h c s hc, hr])),
      hf c s hc]
  | some e =>
    rw [bind_of_some (maybe_of_some hr), bind_of_some (maybe_of_some (by rw [h c s hc, hr]))]

theorem many1 (h : Skips r) (bound : Nat) : Skips (many1 bound r) := h.bind _

theorem failure : Skips (failure : Reader α) := fun _ _ _ => rfl

theorem append (h : Skips r) {gap : List Char} (hgap : gap.all isSpace = true) (s : List Char) :
    r (gap ++ s) = r s := by
  induction gap with
  | nil => rfl
  | cons c gap ih =>
    rw [List.all_cons, Bool.and_eq_true] at hgap
    rw [List.cons_append, h c _ hgap.1, ih hgap.2]

end Skips

def IsSolid (c : Char) : Prop := isSpace c = false ∧ c ≠ '#'

instance (c : Char) : Decidable (IsSolid c) := inferInstanceAs (Decidable (_ ∧ _))

theorem skipped_of_isSolid {c : Char} (h : IsSolid c) (s : List Char) :
    skipped (c :: s) = c :: s := by
  rw [skipped, if_neg (by simp [h.1]), if_neg h.2]

theorem token_of_isSolid {r : Reader α} {c : Char} (h : IsSolid c) (s : List Char) :
    token r (c :: s) = r (c :: s) := by
  change r (skipped (c :: s)) = r (c :: s)
  rw [skipped_of_isSolid h]

/-- Characters of a class are solid if none of those that are skipped is in it. -/
theorem isSolid_of_class {p : Char → Bool} {c : Char}
    (hp : [' ', ',', '\t', '\uFEFF', '\n', '\r', '#'].any p = false) (h : p c = true) :
    IsSolid c := by
  have hout : c ∉ [' ', ',', '\t', '\uFEFF', '\n', '\r', '#'] := fun hc =>
    List.any_eq_false.1 hp c hc h
  simpa [IsSolid, isSpace, isLineEnd, and_assoc] using hout

/-- A symbol is refused where something else comes next. -/
theorem symbol_of_head {word : String} (h : ∀ c ∈ (skipped s).head?, word.toList.head? ≠ some c)
    (hne : word.toList ≠ []) : symbol word s = none := by
  change (after? word.toList (skipped s)).map _ = none
  rw [after?_of_head h hne]
  rfl

theorem symbol_of_ne {word : String} {c : Char} (hc : IsSolid c) (h : word.toList.head? ≠ some c)
    (hne : word.toList ≠ []) (s : List Char) : symbol word (c :: s) = none := by
  refine symbol_of_head (fun d hd => ?_) hne
  rw [skipped_of_isSolid hc] at hd
  rwa [← Option.some.inj hd]

/-! ### Names -/

/-- Nothing in front can be a name, a numeral or a string that goes on here. -/
def Ends (s : List Char) : Prop := ∀ c ∈ s.head?, isNamePart c = false ∧ c ≠ '.' ∧ c ≠ '"'

def IsName (n : String) : Prop :=
  ∃ c cs, n.toList = c :: cs ∧ isNameStart c = true ∧ ∀ d ∈ cs, isNamePart d = true

theorem isSolid_of_isNameStart {c : Char} (h : isNameStart c = true) : IsSolid c :=
  isSolid_of_class (by decide) h

theorem IsName.length_pos {n : String} (h : IsName n) : 0 < n.toList.length := by
  obtain ⟨c, cs, hchars, -⟩ := h
  simp [hchars]

theorem takeWhile_of_ends {p : Char → Bool} (hp : ∀ c, p c = true → isNamePart c = true)
    {cs : List Char} (hcs : ∀ c ∈ cs, p c = true) (h : Ends rest) :
    (cs ++ rest).takeWhile p = cs ∧ (cs ++ rest).dropWhile p = rest := by
  rw [List.takeWhile_append_of_pos hcs, List.dropWhile_append_of_pos hcs]
  cases rest with
  | nil => simp
  | cons c rest =>
    have hc : isNamePart c = false := (h c rfl).1
    have hc : p c = false := Bool.eq_false_iff.2 fun hpc => by simp [hp c hpc] at hc
    simp [hc]

theorem rawName_append {n : String} (hn : IsName n) (h : Ends rest) :
    rawName (n.toList ++ rest) = some (n, rest) := by
  obtain ⟨c, cs, hchars, hc, hcs⟩ := hn
  obtain ⟨htake, hdrop⟩ := takeWhile_of_ends (fun _ => id) hcs h
  rw [hchars, List.cons_append, rawName, if_pos hc, htake, hdrop, ← hchars, String.ofList_toList]

theorem name_append {n : String} (hn : IsName n) (h : Ends rest) :
    name (n.toList ++ rest) = some (n, rest) := by
  have hraw := rawName_append hn h
  obtain ⟨c, cs, hchars, hc, hcs⟩ := hn
  rw [hchars, List.cons_append] at hraw ⊢
  rw [name, token_of_isSolid (isSolid_of_isNameStart hc), hraw]

theorem rawName_yields : rawName.Yields IsName := by
  intro s n rest h
  cases s with
  | nil => exact nomatch h
  | cons c s =>
    rw [rawName] at h
    split at h
    · rename_i hc
      cases h
      exact ⟨c, _, String.toList_ofList, hc, List.all_eq_true.1 List.all_takeWhile⟩
    · exact nomatch h

theorem eq_append_of_rawName {n : String} (h : rawName s = some (n, rest)) :
    s = n.toList ++ rest := by
  cases s with
  | nil => exact nomatch h
  | cons c s =>
    rw [rawName] at h
    split at h
    · cases h
      simp
    · exact nomatch h

theorem Yields.token {r : Reader α} {P : α → Prop} (h : r.Yields P) : (token r).Yields P :=
  fun s => h (skipped s)

theorem name_yields : name.Yields IsName := fun s => rawName_yields (skipped s)

/-- No name begins where the next character starts none. -/
theorem name_of_head (h : ∀ c ∈ (skipped s).head?, isNameStart c = false) : name s = none := by
  change rawName (skipped s) = none
  cases hs : skipped s with
  | nil => rfl
  | cons c rest =>
    have hc : isNameStart c = false := h c (by simp [hs])
    rw [rawName, if_neg (by simp [hc])]

/-! ### Whole numbers -/


theorem isDigit_of_mem_toDigits {n : Nat} {c : Char} (h : c ∈ Nat.toDigits 10 n) :
    isDigit c = true := by
  have hc : c.isDigit = true := Nat.isDigit_of_mem_toDigits (by decide) (by decide) h
  simpa [isDigit, Char.isDigit, Char.le_def] using hc

theorem digitsValue_toDigits (n : Nat) : Numeral.digitsValue (Nat.toDigits 10 n) = n := by
  have hvalue : Nat.ofDigitChars 10 (Nat.toDigits 10 n) 0 = n := Nat.ofDigitChars_ten_toDigits
  rw [Nat.ofDigitChars_eq_foldl] at hvalue
  simpa [Numeral.digitsValue, Numeral.digit, Nat.mul_comm] using hvalue

/-- A zero stands in front only by itself. -/
theorem eq_nil_of_toDigits {n : Nat} {cs : List Char} (h : Nat.toDigits 10 n = '0' :: cs) :
    cs = [] := by
  induction n using Nat.strongRecOn generalizing cs with
  | ind n ih =>
    by_cases hn : n < 10
    · rw [Nat.toDigits_of_lt_base hn] at h
      exact (List.cons.inj h).2.symm
    · rw [Nat.toDigits_of_base_le (by decide) (by omega)] at h
      have hfront : Nat.toDigits 10 (n / 10) = ['0'] := by
        cases hds : Nat.toDigits 10 (n / 10) with
        | nil => exact absurd hds Nat.toDigits_ne_nil
        | cons d ds =>
          rw [hds, List.cons_append] at h
          obtain ⟨rfl, -⟩ := List.cons.inj h
          rw [ih (n / 10) (by omega) hds]
      have hzero := digitsValue_toDigits (n / 10)
      rw [hfront] at hzero
      have hzero : n / 10 = 0 := hzero.symm
      omega

theorem wholeDigits_append (n : Nat) (h : Ends rest) :
    wholeDigits (Nat.toDigits 10 n ++ rest) = some (Nat.toDigits 10 n, rest) := by
  have hdigits : ∀ c ∈ Nat.toDigits 10 n, isDigit c = true := fun c => isDigit_of_mem_toDigits
  cases hds : Nat.toDigits 10 n with
  | nil => exact absurd hds Nat.toDigits_ne_nil
  | cons d ds =>
    rw [hds, List.forall_mem_cons] at hdigits
    rw [List.cons_append, wholeDigits]
    by_cases hd : d = '0'
    · subst hd
      rw [eq_nil_of_toDigits hds, if_pos rfl]
      rfl
    · have hpart : ∀ c, isDigit c = true → isNamePart c = true := fun c hc => by
        simp [isNamePart, hc]
      obtain ⟨htake, hdrop⟩ := takeWhile_of_ends hpart hdigits.2 h
      rw [if_neg hd, if_pos hdigits.1, htake, hdrop]

theorem char_of_ends {p : Char → Bool} (hp : ∀ c, p c = true → isNamePart c = true)
    (h : Ends rest) : Reader.char p rest = none := by
  cases rest with
  | nil => rfl
  | cons c rest =>
    have hc : isNamePart c = false := (h c rfl).1
    have hc : p c = false := Bool.eq_false_iff.2 fun hpc => by simp [hp c hpc] at hc
    simp [Reader.char, hc]

theorem isDigit_of_isNameStart {c : Char} (h : isNameStart c = true) : isDigit c = false := by
  simp only [isNameStart, isLetter, isDigit, Bool.or_eq_true, Bool.and_eq_true, decide_eq_true_eq,
    Bool.and_eq_false_iff, decide_eq_false_iff_not, Char.le_def, UInt32.le_iff_toNat_le] at h ⊢
  rcases h with h | rfl
  · simp only [Char.reduceVal, UInt32.reduceToNat] at h ⊢
    omega
  · decide

theorem numeral_of_head {c : Char} (hsign : c ≠ '-') (hdigit : isDigit c = false) (s : List Char) :
    numeral (c :: s) = none := by
  have hnone : literal "-" (c :: s) = none := by
    refine literal_of_head (fun d hd heq => hsign ?_) (by decide)
    have hdc : c = d := Option.some.inj hd
    exact hdc.trans (Option.some.inj heq).symm
  have hzero : c ≠ '0' := by
    rintro rfl
    exact absurd hdigit (by decide)
  unfold numeral
  rw [bind_of_some (maybe_of_none hnone)]
  refine bind_of_none ?_
  rw [wholeDigits, if_neg hzero, if_neg (by simp [hdigit])]

/-- Digits with nothing but a sign in front. -/
theorem numeral_append (negative : Bool) (n : Nat) (h : Ends rest) :
    numeral ((if negative then ['-'] else []) ++ (Nat.toDigits 10 n ++ rest)) =
      some (⟨negative, Nat.toDigits 10 n, [], none⟩, rest) := by
  have hsign : maybe (literal "-") ((if negative then ['-'] else []) ++
        (Nat.toDigits 10 n ++ rest)) =
      some (if negative then some () else none, Nat.toDigits 10 n ++ rest) := by
    cases negative with
    | true => exact maybe_of_some (literal_append "-" _)
    | false =>
      refine maybe_of_none (literal_of_head (fun c hc => ?_) (by decide))
      cases hds : Nat.toDigits 10 n with
      | nil => exact absurd hds Nat.toDigits_ne_nil
      | cons d ds =>
        have hd : isDigit d = true := isDigit_of_mem_toDigits (n := n) (by simp [hds])
        have hdc : d = c := by simpa [hds] using hc
        rintro heq
        cases heq
        exact absurd (hdc ▸ hd) (by decide)
  have hfraction : fraction rest = none := bind_of_none <|
    literal_of_head (fun c hc heq => (h c hc).2.1 (Option.some.inj heq).symm) (by decide)
  have hexponent : exponent rest = none := bind_of_none (char_of_ends (by
    intro c hc
    have hc : c = 'e' ∨ c = 'E' := by simpa using hc
    rcases hc with rfl | rfl <;> decide) h)
  have hname : Reader.char isNameStart rest = none :=
    char_of_ends (fun c hc => by simp [isNamePart, hc]) h
  have hahead : ahead (Reader.char isNameStart) rest = some (false, rest) := by
    simp [ahead, hname]
  unfold numeral
  rw [bind_of_some hsign, bind_of_some (wholeDigits_append n h),
    bind_of_some (maybe_of_none hfraction), bind_of_some (maybe_of_none hexponent),
    bind_of_some hahead]
  cases negative <;> rfl

theorem exists_number_text (n : Int) :
    ∃ c t, (Number.integer n).text.toList = c :: t ∧ (c = '-' ∨ isDigit c = true) := by
  by_cases hn : n < 0
  · exact ⟨'-', Nat.toDigits 10 n.natAbs, by simp [Number.text, hn], .inl rfl⟩
  · cases hds : Nat.toDigits 10 n.natAbs with
    | nil => exact absurd hds Nat.toDigits_ne_nil
    | cons d ds =>
      have hd : isDigit d = true := isDigit_of_mem_toDigits (n := n.natAbs) (by simp [hds])
      exact ⟨d, ds, by simp [Number.text, hn, hds], .inr hd⟩

theorem numeral_text {n : Int} (hrange : (Number.integer n).InRange) (h : Ends rest) :
    ∃ m, numeral ((Number.integer n).text.toList ++ rest) = some (m, rest) ∧
      m.toNumber = .integer n := by
  refine ⟨⟨decide (n < 0), Nat.toDigits 10 n.natAbs, [], none⟩, ?_, ?_⟩
  · rw [← numeral_append (decide (n < 0)) n.natAbs h]
    by_cases hn : n < 0 <;> simp [Number.text, hn]
  · obtain ⟨hlow, hhigh⟩ := hrange
    simp only [Numeral.toNumber, digitsValue_toDigits]
    by_cases hn : n < 0
    · have hvalue : -(n.natAbs : Int) = n := by omega
      have hfits : 0 < n.natAbs ∧ n.natAbs ≤ Nat.pow 2 63 := by omega
      simp only [hn, decide_true, if_true]
      rw [if_pos (by simpa using hfits), hvalue]
    · have hvalue : (n.natAbs : Int) = n := by omega
      have hfits : n.natAbs < Nat.pow 2 64 := by omega
      simp only [hn, decide_false, Bool.false_eq_true, if_false]
      rw [if_pos (by simpa using hfits), hvalue]

theorem inRange_ite {p : Prop} [Decidable p] {n : Int} (x : Binary64)
    (h : p → (Number.integer n).InRange) : (if p then Number.integer n else .double x).InRange := by
  by_cases hp : p
  · rw [if_pos hp]
    exact h hp
  · rw [if_neg hp]
    trivial

theorem toNumber_inRange (m : Numeral) : m.toNumber.InRange := by
  refine inRange_ite _ fun hfits => ?_
  rw [Bool.and_eq_true] at hfits
  generalize Numeral.digitsValue m.whole = n at hfits
  cases hnegative : m.negative with
  | true =>
    have hn : 0 < n ∧ n ≤ Nat.pow 2 63 := by simpa [hnegative] using hfits.2
    simp only [Number.InRange, if_true]
    omega
  | false =>
    have hn : n < Nat.pow 2 64 := by simpa [hnegative] using hfits.2
    simp only [Number.InRange, Bool.false_eq_true, if_false]
    omega

/-! ### Strings -/

theorem lineString_documentChar {c : Char} (hc : Text.isControl c = false) (s : List Char) :
    lineString (Text.documentChar c ++ s) = (lineString s).map fun e => (c :: e.1, e.2) := by
  have hescaped : ∀ d ∈ ['"', '\\'], lineString ('\\' :: d :: s) =
      (lineString s).map fun e => (d :: e.1, e.2) := by
    intro d hd
    rcases List.mem_pair.1 hd with rfl | rfl <;>
      cases h : lineString s <;> simp [lineString, escaped?, h]
  by_cases hquote : c = '"'
  · exact hquote ▸ hescaped '"' (by decide)
  · by_cases hslash : c = '\\'
    · exact hslash ▸ hescaped '\\' (by decide)
    · have hplain : ∀ d, Text.isControl d = true → c ≠ d := by
        rintro d hd rfl
        simp [hd] at hc
      have htext : Text.documentChar c = [c] := by
        simp [Text.documentChar, hplain '\r' (by decide), hplain '\n' (by decide),
          hplain '\t' (by decide), hquote, hslash, hc]
      have hline : isLineEnd c = false := by
        simp [isLineEnd, hplain '\r' (by decide), hplain '\n' (by decide)]
      rw [htext, List.singleton_append]
      cases h : lineString s <;> simp [lineString, hslash, hline, h]

theorem lineString_append {cs : List Char} (hcs : ∀ c ∈ cs, Text.isControl c = false)
    (rest : List Char) :
    lineString (cs.flatMap Text.documentChar ++ '"' :: rest) = some (cs, rest) := by
  induction cs with
  | nil => rfl
  | cons c cs ih =>
    rw [List.forall_mem_cons] at hcs
    rw [List.flatMap_cons, List.append_assoc, lineString_documentChar hcs.1, ih hcs.2]
    rfl

theorem rawString_of_head {c : Char} (h : c ≠ '"') (s : List Char) : rawString (c :: s) = none := by
  unfold rawString
  split
  · rename_i heq
    exact absurd (List.cons.inj heq).1 h
  · rename_i heq
    exact absurd (List.cons.inj heq).1 h
  · rfl

/-- The text of a character never begins with a quote. -/
theorem exists_documentChar (c : Char) :
    ∃ d ds, Text.documentChar c = d :: ds ∧ d ≠ '"' := by
  unfold Text.documentChar
  split_ifs with h1 h2 h3 hquote
  case neg => exact ⟨c, [], rfl, hquote⟩
  all_goals exact ⟨'\\', _, rfl, by decide⟩

theorem rawString_append {s : String} (hs : ∀ c ∈ s.toList, Text.isControl c = false)
    (h : Ends rest) : rawString ((Text.documentQuoted s).toList ++ rest) = some (s, rest) := by
  have hline := lineString_append hs rest
  have htext : (Text.documentQuoted s).toList ++ rest =
      '"' :: (s.toList.flatMap Text.documentChar ++ '"' :: rest) := by
    simp [Text.documentQuoted]
  -- two quotes in a row are the empty string, and behind those comes no third one
  have hblock : ∀ r, s.toList.flatMap Text.documentChar ++ '"' :: rest ≠ '"' :: '"' :: r := by
    intro r heq
    cases hchars : s.toList with
    | nil =>
      rw [hchars] at heq
      have hrest : rest = '"' :: r := (List.cons.inj heq).2
      exact (h '"' (by simp [hrest])).2.2 rfl
    | cons c cs =>
      obtain ⟨d, ds, hchar, hd⟩ := exists_documentChar c
      rw [hchars, List.flatMap_cons, hchar] at heq
      exact hd (List.cons.inj heq).1
  rw [htext]
  generalize s.toList.flatMap Text.documentChar ++ '"' :: rest = t at hline hblock
  unfold rawString
  split
  · rename_i r heq
    exact absurd (List.cons.inj heq).2 (hblock r)
  · rename_i r hr heq
    rw [← (List.cons.inj heq).2, hline]
    exact congrArg some (Prod.ext String.ofList_toList rfl)
  · rename_i hother
    exact absurd rfl (hother t)

end Grammar
end FederatedQuery
