import FederatedQuery.Proofs.Grammar.Lexeme
import FederatedQuery.Proofs.Value

/-!
Values and types in a text: what a reader takes from a text it also takes from the text that is
rendered for it, as long as the numbers are whole and the strings need no escape by number.
-/
namespace FederatedQuery
open Reader Grammar

/-! ### What documents can spell -/

/-- A name that is not taken for another value, not even in front. -/
def Grammar.IsEnumerant (n : String) : Prop :=
  IsName n ∧ ∀ word ∈ ["true", "false", "null"], after? word.toList n.toList = none

inductive Value.Spelled : Value → Prop
  | reference {name : String} (spelled : IsName name) : Spelled (.reference name)
  | null : Spelled .null
  | boolean {b : Bool} : Spelled (.boolean b)
  | number {n : Number} (inRange : n.InRange) : Spelled (.number n)
  | string {s : String} : Spelled (.string s)
  | enumerant {name : String} (spelled : IsEnumerant name) : Spelled (.enumerant name)
  | list {items : List Value} (each : ∀ v ∈ items, Spelled v) : Spelled (.list items)
  | object {members : List (String × Value)} (names : ∀ m ∈ members, IsName m.1)
      (each : ∀ m ∈ members, Spelled m.2) : Spelled (.object members)

structure Argument.Spelled (a : Argument) : Prop where
  name : IsName a.name
  value : a.value.Spelled

def TypeRef.Spelled (t : TypeRef) : Prop := IsName t.name

namespace Value

mutual
def isPlain : Value → Bool
  | number (.integer _) => true
  | number (.double _) => false
  | string s => s.toList.all fun c => !Text.isControl c
  | list items => isPlainList items
  | object members => isPlainMembers members
  | reference _ | null | boolean _ | enumerant _ => true

def isPlainList : List Value → Bool
  | [] => true
  | v :: rest => v.isPlain && isPlainList rest

def isPlainMembers : List (String × Value) → Bool
  | [] => true
  | (_, v) :: rest => v.isPlain && isPlainMembers rest
end

theorem isPlainList_eq (items : List Value) : isPlainList items = items.all isPlain := by
  induction items with
  | nil => rfl
  | cons v items ih => rw [isPlainList, ih, List.all_cons]

theorem isPlainMembers_eq (members : List (String × Value)) :
    isPlainMembers members = members.all fun m => m.2.isPlain := by
  induction members with
  | nil => rfl
  | cons m members ih => rw [isPlainMembers, ih, List.all_cons]

theorem isFiniteList_eq (items : List Value) : isFiniteList items = items.all isFinite := by
  induction items with
  | nil => rfl
  | cons v items ih => rw [isFiniteList, ih, List.all_cons]

theorem isFiniteMembers_eq (members : List (String × Value)) :
    isFiniteMembers members = members.all fun m => m.2.isFinite := by
  induction members with
  | nil => rfl
  | cons m members ih => rw [isFiniteMembers, ih, List.all_cons]

@[simp] theorem isPlain_list {items : List Value} :
    (list items).isPlain = true ↔ ∀ v ∈ items, v.isPlain = true := by
  rw [isPlain, isPlainList_eq, List.all_eq_true]

@[simp] theorem isPlain_object {members : List (String × Value)} :
    (object members).isPlain = true ↔ ∀ m ∈ members, m.2.isPlain = true := by
  rw [isPlain, isPlainMembers_eq, List.all_eq_true]

theorem Spelled.isFinite {v : Value} (hv : v.Spelled) (h : v.isPlain = true) :
    v.isFinite = true := by
  induction hv with
  | reference | null | boolean | string | enumerant => rfl
  | @number n _ =>
    cases n with
    | integer n => rfl
    | double x => exact nomatch h
  | list _ ih =>
    rw [isPlain_list] at h
    rw [Value.isFinite, isFiniteList_eq, List.all_eq_true]
    exact fun v hv => ih v hv (h v hv)
  | object _ _ ih =>
    rw [isPlain_object] at h
    rw [Value.isFinite, isFiniteMembers_eq, List.all_eq_true]
    exact fun m hm => ih m hm (h m hm)

theorem Spelled.merged {v : Value} (hv : v.Spelled) : v.merged.Spelled := by
  induction hv with
  | reference spelled => exact .reference spelled
  | null => exact .null
  | boolean => exact .boolean
  | number inRange => exact .number inRange
  | string => exact .string
  | enumerant spelled => exact .enumerant spelled
  | list _ ih =>
    rw [Value.merged, mergedList_eq]
    exact .list (by simpa using ih)
  | @object members names _ ih =>
    have hmerged : ∀ m ∈ mergedMembers members, IsName m.1 ∧ m.2.Spelled := by
      rw [mergedMembers_eq, List.forall_mem_map]
      exact fun m hm => ⟨names m hm, ih m hm⟩
    have hsettled := fun m hm => hmerged m (subset_of_settled _ hm)
    exact .object (fun m hm => (hsettled m hm).1) fun m hm => (hsettled m hm).2

end Value

theorem Argument.Spelled.merged {a : Argument} (h : a.Spelled) : a.merged.Spelled :=
  ⟨h.name, h.value.merged⟩

namespace Grammar
variable {rest : List Char} {bound : Nat}

/-! ### Enumerants -/

theorem after?_of_isNamePart {word n : List Char} (hword : word.all isNamePart = true)
    (hn : after? word n = none) (h : Ends rest) : after? word (n ++ rest) = none := by
  fun_induction after? word n with
  | case1 => cases hn
  | case2 c word =>
    refine after?_of_head (fun d hd heq => ?_) (List.cons_ne_nil c word)
    have hcd : c = d := Option.some.inj heq
    have hpart := List.all_eq_true.1 hword c List.mem_cons_self
    simp [(h d hd).1, hcd] at hpart
  | case3 word c n ih =>
    rw [List.all_cons, Bool.and_eq_true] at hword
    simpa [after?] using ih hword.2 hn
  | case4 c word d n hne => simp [after?, hne]

theorem symbol_enumerant {n word : String} (hn : IsEnumerant n)
    (hword : word ∈ ["true", "false", "null"]) (h : Ends rest) :
    symbol word (n.toList ++ rest) = none := by
  obtain ⟨⟨c, cs, hchars, hc, hcs⟩, hwords⟩ := hn
  have hnone := after?_of_isNamePart (by revert word; decide) (hwords word hword) h
  rw [hchars, List.cons_append] at hnone ⊢
  rw [symbol, token_of_isSolid (isSolid_of_isNameStart hc), literal, hnone]
  rfl

theorem rawEnumerant_eq (s : List Char) : rawEnumerant s =
    if ∀ word ∈ ["true", "false", "null"], after? word.toList s = none then rawName s
    else none := by
  have hahead : ahead (literal "true" <|> literal "false" <|> literal "null") s =
      some (!decide (∀ word ∈ ["true", "false", "null"], after? word.toList s = none), s) := by
    change some ((literal "true" s <|> literal "false" s <|> literal "null" s).isSome, s) = _
    simp only [literal, List.forall_mem_cons]
    cases after? "true".toList s <;> cases after? "false".toList s <;>
      cases after? "null".toList s <;> simp
  unfold rawEnumerant
  rw [bind_of_some hahead]
  by_cases h : ∀ word ∈ ["true", "false", "null"], after? word.toList s = none
  · simp only [decide_eq_true h, if_pos h]
    rfl
  · simp only [decide_eq_false h, if_neg h]
    rfl

theorem rawEnumerant_append {n : String} (hn : IsEnumerant n) (h : Ends rest) :
    rawEnumerant (n.toList ++ rest) = some (n, rest) := by
  rw [rawEnumerant_eq, if_pos, rawName_append hn.1 h]
  exact fun word hword => after?_of_isNamePart (by revert word; decide) (hn.2 word hword) h

theorem rawEnumerant_yields : rawEnumerant.Yields IsEnumerant := by
  intro s n rest h
  rw [rawEnumerant_eq] at h
  split at h
  · rename_i hwords
    refine ⟨rawName_yields s n rest h, fun word hword => ?_⟩
    have hs : s = n.toList ++ rest := eq_append_of_rawName h
    cases hafter : after? word.toList n.toList with
    | none => rfl
    | some more =>
      have hmore := after?_mono hafter rest
      rw [← hs, hwords word hword] at hmore
      exact nomatch hmore
  · exact nomatch h

/-! ### Values -/

theorem value_skips (bound : Nat) : Skips (value false bound) := by
  cases bound with
  | zero => exact .failure
  | succ bound =>
    rw [value]
    refine .orElse ?_ (.orElse ?_ (.orElse ?_ (.orElse ?_ (.orElse ?_ (.orElse ?_ (.orElse ?_
      (.orElse ?_ ?_)))))))
    all_goals exact (Skips.token _).bind _

theorem member_skips (bound : Nat) : Skips (member false bound) := by
  cases bound with
  | zero => exact .failure
  | succ bound => exact (Skips.token rawName).bind _

theorem value_spelled_of (hvalue : (value false bound).Yields Value.Spelled)
    (hmember : (member false bound).Yields fun m => IsName m.1 ∧ m.2.Spelled) :
    (value false (bound + 1)).Yields Value.Spelled := by
  rw [value]
  refine .orElse ?_ (.orElse ?_ (.orElse ?_ (.orElse ?_ (.orElse ?_ (.orElse ?_ (.orElse ?_
    (.orElse ?_ ?_)))))))
  · exact .andThen fun _ => name_yields.bind fun _ hname => .pure (.reference hname)
  · exact .andThen fun m => .pure (.number (toNumber_inRange m))
  · exact .andThen fun _ => .pure .string
  · exact .andThen fun _ => .pure .boolean
  · exact .andThen fun _ => .pure .boolean
  · exact .andThen fun _ => .pure .null
  · exact (Yields.token rawEnumerant_yields).bind fun _ hname => .pure (.enumerant hname)
  · refine .andThen fun _ => (hvalue.many bound).bind fun items hitems => ?_
    exact .andThen fun _ => .pure (.list hitems)
  · refine .andThen fun _ => (hmember.many bound).bind fun members hmembers => ?_
    exact .andThen fun _ => .pure
      (.object (fun m hm => (hmembers m hm).1) fun m hm => (hmembers m hm).2)

theorem values_spelled (bound : Nat) : (value false bound).Yields Value.Spelled ∧
    (member false bound).Yields fun m => IsName m.1 ∧ m.2.Spelled := by
  induction bound with
  | zero =>
    rw [value, member]
    exact ⟨.failure, .failure⟩
  | succ bound ih =>
    refine ⟨value_spelled_of ih.1 ih.2, ?_⟩
    rw [member]
    refine name_yields.bind fun n hn => .andThen fun _ => ?_
    exact ih.1.bind fun v hv => .pure ⟨hn, hv⟩

def bracketed (opening closing : Char) (texts : List (List Char)) : List Char :=
  opening :: ([',', ' '].intercalate texts ++ [closing])

theorem fits_of_bracketed {α : Type} {text : α → List Char} {items : List α}
    {opening closing : Char}
    (h : (bracketed opening closing (items.map text)).length ≤ bound + 1) :
    items.length ≤ bound ∧ ∀ a ∈ items, (text a).length ≤ bound := by
  have henough : items.length ≤ ([',', ' '].intercalate (items.map text)).length + 1 :=
    length_le_intercalate text items (by decide)
  rw [bracketed, List.length_cons, List.length_append, List.length_singleton] at h
  refine ⟨by omega, fun a ha => ?_⟩
  have hlength := length_text_le_intercalate text [',', ' '] ha
  omega

theorem text_list (items : List Value) :
    (Value.list items).text.toList = bracketed '[' ']' (items.map fun v => v.text.toList) := by
  have htexts : Value.texts items = items.map Value.text := by
    induction items with
    | nil => rfl
    | cons v items ih => rw [Value.texts, ih, List.map_cons]
  simp [Value.text, htexts, bracketed, String.toList_intercalate, Function.comp_def]

def memberText (m : String × Value) : List Char := m.1.toList ++ ':' :: ' ' :: m.2.text.toList

theorem text_object (members : List (String × Value)) :
    (Value.object members).text.toList = bracketed '\x7b' '\x7d' (members.map memberText) := by
  have htexts : (Value.memberTexts members).map String.toList = members.map memberText := by
    induction members with
    | nil => rfl
    | cons m members ih =>
      rw [Value.memberTexts, List.map_cons, ih, List.map_cons]
      simp [memberText]
  simp [Value.text, htexts, bracketed, String.toList_intercalate]

theorem ends_cons {c : Char} (h : isNamePart c = false ∧ c ≠ '.' ∧ c ≠ '"') (s : List Char) :
    Ends (c :: s) := by
  intro d hd
  rwa [← Option.some.inj hd]

theorem value_reference {name : String} (hname : IsName name) (h : Ends rest) :
    value false (bound + 1) ('$' :: (name.toList ++ rest)) = some (.reference name, rest) := by
  rw [value]
  refine orElse_of_some ?_
  simp only [Bool.false_eq_true, if_false]
  rw [bind_of_some (a := ()) rfl, bind_of_some (name_append hname h)]
  rfl

theorem value_integer {n : Int} (hrange : (Number.integer n).InRange) (h : Ends rest) :
    value false (bound + 1) ((Number.integer n).text.toList ++ rest) =
      some (.number (.integer n), rest) := by
  obtain ⟨m, hread, hm⟩ := numeral_text hrange h
  obtain ⟨c, t, htext, hc⟩ := exists_number_text n
  have hsolid : IsSolid c := by
    cases hc with
    | inl heq => exact heq ▸ by decide
    | inr hdigit => exact isSolid_of_class (by decide) hdigit
  have hdollar : c ≠ '$' := by
    rintro rfl
    exact absurd hc (by decide)
  rw [htext, List.cons_append] at hread ⊢
  have htoken : token numeral (c :: (t ++ rest)) = some (m, rest) := by
    rw [token_of_isSolid hsolid, hread]
  rw [value]
  refine (orElse_of_none (bind_of_none ?_)).trans (orElse_of_some ?_)
  · exact symbol_of_ne hsolid (by simpa using hdollar.symm) (by decide) _
  · rw [bind_of_some htoken, hm]
    rfl

theorem value_string {s : String} (hs : ∀ c ∈ s.toList, Text.isControl c = false) (h : Ends rest) :
    value false (bound + 1) ((Text.documentQuoted s).toList ++ rest) = some (.string s, rest) := by
  have hread := rawString_append hs h
  obtain ⟨t, ht⟩ : ∃ t, (Text.documentQuoted s).toList ++ rest = '"' :: t := ⟨_, by
    simp [Text.documentQuoted]; rfl⟩
  rw [ht] at hread ⊢
  have htoken : token rawString ('"' :: t) = some (s, rest) := hread
  rw [value]
  refine (orElse_of_none rfl).trans ((orElse_of_none rfl).trans (orElse_of_some ?_))
  rw [bind_of_some htoken]
  rfl

theorem value_boolean (b : Bool) :
    value false (bound + 1) ((Value.boolean b).text.toList ++ rest) = some (.boolean b, rest) := by
  rw [value]
  cases b with
  | true =>
    refine (orElse_of_none rfl).trans ((orElse_of_none rfl).trans ((orElse_of_none rfl).trans
      (orElse_of_some ?_)))
    rfl
  | false =>
    refine (orElse_of_none rfl).trans ((orElse_of_none rfl).trans ((orElse_of_none rfl).trans
      ((orElse_of_none rfl).trans (orElse_of_some ?_))))
    rfl

theorem value_null :
    value false (bound + 1) (Value.null.text.toList ++ rest) = some (.null, rest) := by
  rw [value]
  refine (orElse_of_none rfl).trans ((orElse_of_none rfl).trans ((orElse_of_none rfl).trans
    ((orElse_of_none rfl).trans ((orElse_of_none rfl).trans (orElse_of_some ?_)))))
  rfl

theorem value_enumerant {name : String} (hname : IsEnumerant name) (h : Ends rest) :
    value false (bound + 1) (name.toList ++ rest) = some (.enumerant name, rest) := by
  have hread := rawEnumerant_append hname h
  have hwords : ∀ word ∈ ["true", "false", "null"], symbol word (name.toList ++ rest) = none :=
    fun word hword => symbol_enumerant hname hword h
  obtain ⟨⟨c, cs, hchars, hc, -⟩, -⟩ := hname
  have hsolid := isSolid_of_isNameStart hc
  have hother : ∀ d, isNameStart d = false → c ≠ d := by
    rintro d hd rfl
    simp [hc] at hd
  rw [hchars, List.cons_append] at hread hwords ⊢
  rw [value]
  refine (orElse_of_none (bind_of_none ?dollar)).trans <|
    (orElse_of_none (bind_of_none ?numeral)).trans <|
    (orElse_of_none (bind_of_none ?string)).trans <|
    (orElse_of_none (bind_of_none (hwords "true" (by decide)))).trans <|
    (orElse_of_none (bind_of_none (hwords "false" (by decide)))).trans <|
    (orElse_of_none (bind_of_none (hwords "null" (by decide)))).trans (orElse_of_some ?read)
  case dollar =>
    exact symbol_of_ne hsolid (by simpa using (hother '$' (by decide)).symm) (by decide) _
  case numeral =>
    rw [token_of_isSolid hsolid]
    exact numeral_of_head (hother '-' (by decide)) (isDigit_of_isNameStart hc) _
  case string =>
    rw [token_of_isSolid hsolid]
    exact rawString_of_head (hother '"' (by decide)) _
  case read =>
    have htoken := (token_of_isSolid (r := rawEnumerant) hsolid _).trans hread
    rw [bind_of_some htoken]
    rfl

theorem value_list {items : List Value} (h : Listed (value false bound) (fun v => v.text.toList)
      [',', ' '] Ends items (']' :: rest)) (enough : items.length ≤ bound) :
    value false (bound + 1) ((Value.list items).text.toList ++ rest) =
      some (.list items, rest) := by
  have hitems := h.many enough
  rw [text_list, bracketed, List.cons_append, List.append_assoc, List.singleton_append, value]
  refine (orElse_of_none rfl).trans ((orElse_of_none rfl).trans ((orElse_of_none rfl).trans
    ((orElse_of_none rfl).trans ((orElse_of_none rfl).trans ((orElse_of_none rfl).trans
    ((orElse_of_none rfl).trans (orElse_of_some ?_)))))))
  rw [bind_of_some (a := ()) rfl, bind_of_some hitems, bind_of_some (a := ()) rfl]
  rfl

theorem value_object {members : List (String × Value)}
    (h : Listed (member false bound) memberText [',', ' '] Ends members ('\x7d' :: rest))
    (enough : members.length ≤ bound) :
    value false (bound + 1) ((Value.object members).text.toList ++ rest) =
      some (.object members, rest) := by
  have hmembers := h.many enough
  rw [text_object, bracketed, List.cons_append, List.append_assoc, List.singleton_append, value]
  refine (orElse_of_none rfl).trans ((orElse_of_none rfl).trans ((orElse_of_none rfl).trans
    ((orElse_of_none rfl).trans ((orElse_of_none rfl).trans ((orElse_of_none rfl).trans
    ((orElse_of_none rfl).trans ((orElse_of_none rfl).trans ?_)))))))
  rw [bind_of_some (a := ()) rfl, bind_of_some hmembers, bind_of_some (a := ()) rfl]
  rfl

theorem length_text_pos {v : Value} (hv : v.Spelled) (hplain : v.isPlain = true) :
    0 < v.text.toList.length := by
  rw [List.length_pos_iff]
  cases hv with
  | reference => simp [Value.text]
  | null => decide
  | @boolean b => cases b <;> decide
  | @number n =>
    cases n with
    | integer n =>
      obtain ⟨c, t, htext, -⟩ := exists_number_text n
      simp [Value.text, htext]
    | double x => exact nomatch hplain
  | string => simp [Value.text, Text.documentQuoted]
  | enumerant spelled =>
    obtain ⟨⟨c, cs, hchars, -⟩, -⟩ := spelled
    simp [Value.text, hchars]
  | list => simp [text_list, bracketed]
  | object => simp [text_object, bracketed]

/-- A value is read behind its name and a colon. -/
theorem named_append {β : Type} {name : String} {v : Value} {s : List Char} {f : String → Value → β}
    (hname : IsName name) (h : value false bound (v.text.toList ++ s) = some (v, s)) :
    (do let n ← Grammar.name; symbol ":"; return f n (← value false bound) : Reader β)
      (memberText (name, v) ++ s) = some (f name v, s) := by
  have htext : memberText (name, v) ++ s =
      name.toList ++ ':' :: ' ' :: (v.text.toList ++ s) := by
    simp [memberText]
  have hvalue : value false bound (' ' :: (v.text.toList ++ s)) = some (v, s) := by
    rw [value_skips bound ' ' _ rfl, h]
  rw [htext, bind_of_some (name_append hname (ends_cons (by decide) _)),
    bind_of_some (a := ()) rfl, bind_of_some hvalue]
  rfl

/-- A value is read back from its text, whatever stands behind it that is no part of a lexeme. -/
theorem value_text {v : Value} (hv : v.Spelled) (hplain : v.isPlain = true)
    (hbound : v.text.toList.length ≤ bound) (h : Ends rest) :
    value false bound (v.text.toList ++ rest) = some (v, rest) := by
  have hpos := length_text_pos hv hplain
  obtain ⟨bound, rfl⟩ : ∃ b, bound = b + 1 := ⟨bound - 1, by omega⟩
  induction hv generalizing bound rest with
  | @reference name spelled =>
    have htext : (Value.reference name).text.toList = '$' :: name.toList := by simp [Value.text]
    rw [htext, List.cons_append]
    exact value_reference spelled h
  | null => exact value_null
  | @boolean b => exact value_boolean b
  | @number n inRange =>
    cases n with
    | integer n => exact value_integer inRange h
    | double x => exact nomatch hplain
  | @string s => exact value_string (by simpa [Value.isPlain] using hplain) h
  | enumerant spelled => exact value_enumerant spelled h
  | @list items each ih =>
    rw [Value.isPlain_list] at hplain
    rw [text_list] at hbound
    obtain ⟨henough, hlengths⟩ := fits_of_bracketed hbound
    refine value_list ⟨(value_skips bound).append (by decide), fun v hv s hs => ?_,
      fun v _ s => ends_cons (by decide) _, ends_cons (by decide) rest, ?_⟩ henough
    · have hlength := hlengths v hv
      have hpos := length_text_pos (each v hv) (hplain v hv)
      obtain ⟨bound, rfl⟩ : ∃ b, bound = b + 1 := ⟨bound - 1, by omega⟩
      exact ih v hv (hplain v hv) hs hpos bound hlength
    · cases bound <;> rfl
  | @object members names each ih =>
    rw [Value.isPlain_object] at hplain
    rw [text_object] at hbound
    obtain ⟨henough, hlengths⟩ := fits_of_bracketed hbound
    refine value_object ⟨(member_skips bound).append (by decide), fun m hm s hs => ?_,
      fun m _ s => ends_cons (by decide) _, ends_cons (by decide) rest, ?_⟩ henough
    · have hlength := hlengths m hm
      have hpos := length_text_pos (each m hm) (hplain m hm)
      rw [memberText, List.length_append, List.length_cons, List.length_cons] at hlength
      obtain ⟨bound, rfl⟩ : ∃ b, bound = b + 2 := ⟨bound - 2, by omega⟩
      have hread := ih m hm (hplain m hm) hs hpos bound (by omega)
      rw [member]
      exact named_append (names m hm) hread
    · cases bound <;> rfl

/-! ### Arguments -/

theorem text_argument (a : Argument) : a.text.toList = memberText (a.name, a.value) := by
  simp [Argument.text, memberText]

theorem argument_skips (bound : Nat) : Skips (argument false bound) :=
  (Skips.token rawName).bind _

theorem argument_append {a : Argument} {s : List Char} (ha : a.Spelled)
    (hplain : a.value.isPlain = true) (hbound : a.text.toList.length ≤ bound) (h : Ends s) :
    argument false bound (a.text.toList ++ s) = some (a, s) := by
  have hlength : a.value.text.toList.length ≤ bound := by
    simp only [text_argument, memberText, List.length_append, List.length_cons] at hbound
    omega
  rw [text_argument]
  exact named_append ha.name (value_text ha.value hplain hlength h)

def argumentsText (args : List Argument) : List Char :=
  bracketed '(' ')' (args.map fun a => a.text.toList)

theorem arguments_append {args : List Argument} (hne : args ≠ []) (hargs : ∀ a ∈ args, a.Spelled)
    (hplain : ∀ a ∈ args, a.value.isPlain = true)
    (hbound : (argumentsText args).length ≤ bound + 1) :
    arguments false bound (argumentsText args ++ rest) = some (args, rest) := by
  obtain ⟨henough, hlengths⟩ := fits_of_bracketed hbound
  obtain ⟨a, others, rfl⟩ := List.exists_cons_of_ne_nil hne
  have hlisted : Listed (argument false bound) (fun a => a.text.toList) [',', ' '] Ends
      (a :: others) (')' :: rest) :=
    ⟨(argument_skips bound).append (by decide),
      fun b hb s hs => argument_append (hargs b hb) (hplain b hb) (hlengths b hb) hs,
      fun _ _ s => ends_cons (by decide) _, ends_cons (by decide) rest, rfl⟩
  have hread := hlisted.many1 (Nat.le_of_succ_le henough)
  rw [argumentsText, bracketed, List.cons_append, List.append_assoc, List.singleton_append,
    arguments, bind_of_some (a := ()) rfl, bind_of_some hread, bind_of_some (a := ()) rfl]
  rfl

theorem arguments_spelled (bound : Nat) :
    (arguments false bound).Yields fun args => ∀ a ∈ args, a.Spelled := by
  refine .andThen fun _ => (Yields.many1 bound (P := Argument.Spelled) ?_).bind fun args hargs => ?_
  · refine name_yields.bind fun n hn => .andThen fun _ => ?_
    exact (values_spelled bound).1.bind fun v hv => .pure ⟨hn, hv⟩
  · exact .andThen fun _ => .pure hargs.2

/-! ### Types -/

theorem rawType_spelled (bound : Nat) : (rawType bound).Yields TypeRef.Spelled := by
  induction bound with
  | zero => exact .failure
  | succ bound ih =>
    rw [rawType]
    refine Yields.bind (P := Sum.elim IsName TypeRef.Spelled) (.orElse ?_ ?_) fun type htype => ?_
    · exact rawName_yields.bind fun _ hn => .pure hn
    · exact .andThen fun _ => ih.bind fun _ ht => .andThen fun _ => .pure ht
    · refine .andThen fun _ => .pure ?_
      cases type with
      | inl n => exact htype
      | inr t => exact htype

def requiredMark (required : Bool) : List Char := if required then ['!'] else []

theorem requiredMark_append (required : Bool) (h : rest.head? ≠ some '!') :
    ∃ mark?, maybe (literal "!") (requiredMark required ++ rest) = some (mark?, rest) ∧
      mark?.isSome = required := by
  cases required with
  | true => exact ⟨some (), maybe_of_some (literal_append "!" rest), rfl⟩
  | false =>
    refine ⟨none, maybe_of_none (literal_of_head (fun c hc heq => h ?_) (by decide)), rfl⟩
    have heq : '!' = c := Option.some.inj heq
    exact heq ▸ hc

theorem ends_requiredMark (required : Bool) (h : Ends rest) :
    Ends (requiredMark required ++ rest) := by
  cases required with
  | true => exact ends_cons (by decide) rest
  | false => exact h

theorem text_named (n : String) (required : Bool) :
    (TypeRef.named n required).text.toList = n.toList ++ requiredMark required := by
  cases required <;> simp [TypeRef.text, requiredMark]

theorem text_listOf (t : TypeRef) (required : Bool) : (TypeRef.list t required).text.toList =
    '[' :: (t.text.toList ++ ']' :: requiredMark required) := by
  cases required <;> simp [TypeRef.text, requiredMark]

theorem depth_le_length (t : TypeRef) : t.depth ≤ t.text.toList.length := by
  induction t with
  | named n required => exact Nat.zero_le _
  | list t required ih =>
    rw [text_listOf, TypeRef.depth, List.length_cons, List.length_append]
    omega

theorem rawType_append {t : TypeRef} (ht : t.Spelled) (hbound : t.depth < bound) (h : Ends rest)
    (hrest : rest.head? ≠ some '!') : rawType bound (t.text.toList ++ rest) = some (t, rest) := by
  induction t generalizing bound rest with
  | named n required =>
    obtain ⟨bound, rfl⟩ : ∃ b, bound = b + 1 := ⟨bound - 1, by omega⟩
    obtain ⟨mark?, hmark, hrequired⟩ := requiredMark_append required hrest
    have hname : (do return Sum.inl (← rawName) : Reader (String ⊕ TypeRef))
        (n.toList ++ (requiredMark required ++ rest)) =
          some (.inl n, requiredMark required ++ rest) := by
      rw [bind_of_some (rawName_append (n := n) ht (ends_requiredMark required h))]
      rfl
    rw [text_named, List.append_assoc, rawType, bind_of_some (orElse_of_some hname),
      bind_of_some hmark, hrequired]
    rfl
  | list t required ih =>
    obtain ⟨bound, rfl⟩ : ∃ b, bound = b + 1 := ⟨bound - 1, by omega⟩
    obtain ⟨mark?, hmark, hrequired⟩ := requiredMark_append required hrest
    have hinner : rawType bound (t.text.toList ++ ']' :: (requiredMark required ++ rest)) =
        some (t, ']' :: (requiredMark required ++ rest)) :=
      ih ht (by rw [TypeRef.depth] at hbound; omega) (ends_cons (by decide) _) (by simp)
    have hlist : (do literal "["; let inner ← rawType bound; literal "]"; return Sum.inr inner :
        Reader (String ⊕ TypeRef))
          ('[' :: (t.text.toList ++ ']' :: (requiredMark required ++ rest))) =
            some (.inr t, requiredMark required ++ rest) := by
      rw [bind_of_some (a := ()) rfl, bind_of_some hinner, bind_of_some (a := ()) rfl]
      rfl
    rw [text_listOf, List.cons_append, List.append_assoc, List.cons_append, rawType,
      bind_of_some ((orElse_of_none rfl).trans hlist), bind_of_some hmark, hrequired]
    rfl

theorem typeRef_append {t : TypeRef} (ht : t.Spelled) (hbound : t.depth < bound) (h : Ends rest)
    (hrest : rest.head? ≠ some '!') : typeRef bound (t.text.toList ++ rest) = some (t, rest) := by
  have hread := rawType_append ht hbound h hrest
  cases t with
  | named n required =>
    obtain ⟨c, cs, hchars, hc, -⟩ := ht
    have hchars : n.toList = c :: cs := hchars
    rw [text_named, hchars, List.cons_append, List.cons_append] at hread ⊢
    rw [typeRef, token_of_isSolid (isSolid_of_isNameStart hc), hread]
  | list t required =>
    rw [text_listOf, List.cons_append] at hread ⊢
    rw [typeRef, token_of_isSolid (by decide), hread]

end Grammar
end FederatedQuery
