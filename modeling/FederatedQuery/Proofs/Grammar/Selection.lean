import FederatedQuery.Proofs.Grammar.Value

/-!
Selections in a text: selections without directives and spreads are read back from the text that is
rendered for them.
-/
namespace FederatedQuery
open Reader Grammar

/-! ### How selections are rendered -/

namespace Selection

def aliasText (alias? : Option String) : List Char :=
  match alias? with
  | some a => a.toList ++ [':', ' ']
  | none => []

def argumentsText (args : List Argument) : List Char :=
  if args.isEmpty then [] else Grammar.argumentsText args

def braced (texts : List (List Char)) : List Char :=
  '\x7b' :: ' ' :: ([' '].intercalate texts ++ [' ', '\x7d'])

def belowText (texts : List (List Char)) : List Char :=
  if texts.isEmpty then [] else ' ' :: braced texts

def conditionText (condition? : Option String) : List Char :=
  '.' :: '.' :: '.' :: match condition? with
    | some name => ' ' :: 'o' :: 'n' :: ' ' :: name.toList
    | none => []

mutual
def rendered : Selection → List Char
  | .field alias? name arguments _ below =>
    aliasText alias? ++ (name.toList ++ (argumentsText arguments ++ belowText (renderedList below)))
  | .inline condition? _ below =>
    conditionText condition? ++ ' ' :: braced (renderedList below)
  | .spread name _ => '.' :: '.' :: '.' :: name.toList

def renderedList : List Selection → List (List Char)
  | [] => []
  | t :: rest => t.rendered :: renderedList rest
end

theorem renderedList_eq (selections : List Selection) :
    renderedList selections = selections.map rendered := by
  induction selections with
  | nil => rfl
  | cons t rest ih => rw [renderedList, ih, List.map_cons]

/-- A selection as it is rendered for fields: without directives and spreads, and with values that
are read back. -/
inductive Written : Selection → Prop
  | field {alias? : Option String} {name : String} {arguments : List Argument}
      {below : List Selection} (aliased : ∀ a ∈ alias?, IsName a) (named : IsName name)
      (given : ∀ a ∈ arguments, a.Spelled ∧ a.value.isPlain = true)
      (each : ∀ t ∈ below, Written t) : Written (.field alias? name arguments [] below)
  | inline {condition : String} {below : List Selection} (named : IsName condition)
      (filled : below ≠ []) (each : ∀ t ∈ below, Written t) :
      Written (.inline (some condition) [] below)

end Selection

/-! ### Reading them back -/

namespace Grammar
variable {s rest : List Char} {bound : Nat} {stops : List Char}

/-- What follows goes on with none of the characters, and no lexeme in front goes on in it. -/
structure Follows (stops s : List Char) : Prop where
  ends : Ends s
  stops : ∀ c ∈ (skipped s).head?, c ∉ stops

theorem Follows.mono {fewer : List Char} (h : Follows stops s) (hsub : fewer ⊆ stops) :
    Follows fewer s :=
  ⟨h.ends, fun c hc hmem => h.stops c hc (hsub hmem)⟩

theorem Follows.symbol {word : String} {c : Char} (h : Follows stops s) (hword : word.toList = [c])
    (hc : c ∈ stops) : symbol word s = none := by
  refine symbol_of_head (fun d hd heq => h.stops d hd ?_) (by simp [hword])
  rw [hword] at heq
  exact Option.some.inj heq ▸ hc

theorem directives_of_follows (h : Follows stops s) (hstops : '@' ∈ stops) :
    directives false bound s = some ([], s) :=
  many_of_none bound (bind_of_none (h.symbol rfl hstops))

theorem selectionSet_skips (bound : Nat) : Skips (selectionSet bound) := by
  cases bound with
  | zero => exact .failure
  | succ bound =>
    rw [selectionSet]
    exact (Skips.token _).bind _

theorem maybe_skips {α : Type} {r : Reader α} (h : Skips r) {c : Char} (hc : isSpace c = true)
    {a : α} (hread : r s = some (a, rest)) : maybe r (c :: s) = some (some a, rest) :=
  maybe_of_some (by rw [h c s hc, hread])

theorem arguments_of_follows {args : List Argument}
    (hargs : ∀ a ∈ args, a.Spelled ∧ a.value.isPlain = true)
    (hbound : (Selection.argumentsText args).length ≤ bound + 1) (h : Follows stops rest)
    (hstops : '(' ∈ stops) :
    ∃ args?, maybe (arguments false bound) (Selection.argumentsText args ++ rest) =
      some (args?, rest) ∧ args?.getD [] = args := by
  cases args with
  | nil => exact ⟨none, maybe_of_none (bind_of_none (h.symbol rfl hstops)), rfl⟩
  | cons a args =>
    refine ⟨some (a :: args), maybe_of_some ?_, rfl⟩
    exact arguments_append (List.cons_ne_nil a args) (fun b hb => (hargs b hb).1)
      (fun b hb => (hargs b hb).2) hbound

theorem follows_cons {c : Char} (hends : isNamePart c = false ∧ c ≠ '.' ∧ c ≠ '"')
    (hsolid : IsSolid c) (hc : c ∉ stops) (s : List Char) : Follows stops (c :: s) := by
  refine ⟨ends_cons hends s, fun d hd => ?_⟩
  rw [skipped_of_isSolid hsolid] at hd
  rwa [← Option.some.inj hd]

theorem follows_space {c : Char} (hsolid : IsSolid c) (hc : c ∉ stops) (s : List Char) :
    Follows stops (' ' :: c :: s) := by
  refine ⟨ends_cons (by decide) _, fun d hd => ?_⟩
  rw [skipped_cons_of_isSpace _ (by decide), skipped_of_isSolid hsolid] at hd
  rwa [← Option.some.inj hd]

theorem follows_belowText (texts : List (List Char)) (h : Follows [':', '(', '@', '{'] rest) :
    Follows [':', '(', '@'] (Selection.belowText texts ++ rest) := by
  cases texts with
  | nil => exact h.mono (by simp)
  | cons text texts => exact follows_space (by decide) (by decide) _

theorem follows_argumentsText (args : List Argument) (h : Follows [':', '(', '@'] rest) :
    Follows [':'] (Selection.argumentsText args ++ rest) := by
  cases args with
  | nil => exact h.mono (by simp)
  | cons a args => exact follows_cons (by decide) (by decide) (by decide) _

/-- Without a colon behind it a name is no alias. -/
theorem alias_append {alias? : Option String} {name : String} (halias : ∀ a ∈ alias?, IsName a)
    (hname : IsName name) (h : Follows [':'] rest) :
    ∃ s, maybe (do let a ← Grammar.name; symbol ":"; return a)
        (Selection.aliasText alias? ++ (name.toList ++ rest)) = some (alias?, s) ∧
      Grammar.name s = some (name, rest) := by
  have hread := name_append hname h.ends
  cases alias? with
  | none =>
    refine ⟨name.toList ++ rest, maybe_of_none ?_, hread⟩
    rw [Selection.aliasText, List.nil_append, bind_of_some hread]
    exact bind_of_none (h.symbol rfl (by decide))
  | some a =>
    refine ⟨' ' :: (name.toList ++ rest), maybe_of_some ?_, ?_⟩
    · rw [Selection.aliasText, List.append_assoc, List.cons_append,
        bind_of_some (name_append (halias a rfl) (ends_cons (by decide) _)),
        bind_of_some (a := ()) rfl]
      rfl
    · rw [Grammar.name, Skips.token rawName ' ' _ (by decide)]
      exact hread

theorem selection_field {alias? : Option String} {name : String} {args : List Argument}
    {below : List Selection} (halias : ∀ a ∈ alias?, IsName a) (hname : IsName name)
    (hargs : ∀ a ∈ args, a.Spelled ∧ a.value.isPlain = true)
    (hbound : (Selection.argumentsText args).length ≤ bound + 1)
    (hbelow : below ≠ [] → selectionSet bound (Selection.braced (below.map Selection.rendered) ++
      rest) = some (below, rest))
    (h : Follows [':', '(', '@', '{'] rest) :
    selection (bound + 1) ((Selection.field alias? name args [] below).rendered ++ rest) =
      some (.field alias? name args [] below, rest) := by
  have hbehind := follows_belowText (below.map Selection.rendered) h
  have hset : ∃ below?, maybe (selectionSet bound)
      (Selection.belowText (below.map Selection.rendered) ++ rest) = some (below?, rest) ∧
        below?.getD [] = below := by
    cases below with
    | nil =>
      refine ⟨none, maybe_of_none ?_, rfl⟩
      cases bound with
      | zero => rfl
      | succ bound =>
        rw [selectionSet]
        exact bind_of_none (h.symbol rfl (by decide))
    | cons t below =>
      refine ⟨some (t :: below), ?_, rfl⟩
      exact maybe_skips (selectionSet_skips bound) (by decide) (hbelow (List.cons_ne_nil t below))
  obtain ⟨s, halias, hname⟩ := alias_append halias hname (follows_argumentsText args hbehind)
  obtain ⟨args?, hargs, hargs?⟩ := arguments_of_follows hargs hbound hbehind (by decide)
  obtain ⟨below?, hset, hbelow?⟩ := hset
  have htext : (Selection.field alias? name args [] below).rendered ++ rest =
      Selection.aliasText alias? ++ (name.toList ++ (Selection.argumentsText args ++
        (Selection.belowText (below.map Selection.rendered) ++ rest))) := by
    rw [Selection.rendered, Selection.renderedList_eq]
    simp only [List.append_assoc]
  rw [htext, selection]
  refine orElse_of_some ?_
  rw [bind_of_some halias, bind_of_some hname, bind_of_some hargs,
    bind_of_some (directives_of_follows hbehind (by decide)), bind_of_some hset, hargs?, hbelow?]
  rfl

theorem condition_append {name : String} (hname : IsName name) (h : Ends rest) :
    condition (' ' :: 'o' :: 'n' :: ' ' :: (name.toList ++ rest)) = some (name, rest) := by
  have hread := rawName_append hname h
  have hdrop : (name.toList ++ rest).dropWhile isSpace = name.toList ++ rest := by
    obtain ⟨c, cs, hchars, hc, -⟩ := hname
    have hspace := (isSolid_of_isNameStart hc).1
    rw [hchars, List.cons_append, List.dropWhile_cons_of_neg (by simp [hspace])]
  change rawName ((name.toList ++ rest).dropWhile isSpace) = some (name, rest)
  rw [hdrop, hread]

theorem selection_inline {condition : String} {below : List Selection} (hname : IsName condition)
    (hbelow : selectionSet bound (Selection.braced (below.map Selection.rendered) ++ rest) =
      some (below, rest)) :
    selection (bound + 1) ((Selection.inline (some condition) [] below).rendered ++ rest) =
      some (.inline (some condition) [] below, rest) := by
  have hbehind : Follows ['@'] (' ' :: (Selection.braced (below.map Selection.rendered) ++ rest)) :=
    follows_space (by decide) (by decide) _
  have hcondition := condition_append hname hbehind.ends
  have hset : selectionSet bound
      (' ' :: (Selection.braced (below.map Selection.rendered) ++ rest)) = some (below, rest) := by
    rw [selectionSet_skips bound ' ' _ (by decide), hbelow]
  have htext : (Selection.inline (some condition) [] below).rendered ++ rest =
      '.' :: '.' :: '.' :: ' ' :: 'o' :: 'n' :: ' ' :: (condition.toList ++
        ' ' :: (Selection.braced (below.map Selection.rendered) ++ rest)) := by
    rw [Selection.rendered, Selection.renderedList_eq]
    simp [Selection.conditionText]
  rw [htext, selection]
  refine (orElse_of_none rfl).trans (orElse_of_some ?_)
  rw [bind_of_some (a := ()) rfl, bind_of_some (maybe_of_some hcondition),
    bind_of_some (directives_of_follows hbehind (by decide)), bind_of_some hset]
  rfl

theorem selection_skips (bound : Nat) : Skips (selection bound) := by
  cases bound with
  | zero => exact .failure
  | succ bound =>
    rw [selection]
    refine .orElse (.maybe_bind ?_ ?_) (.orElse ?_ ?_)
    all_goals exact (Skips.token _).bind _

theorem exists_rendered {t : Selection} (ht : t.Written) :
    ∃ c cs, t.rendered = c :: cs ∧ (isNameStart c = true ∨ c = '.') := by
  cases ht with
  | @field alias? name args below aliased named =>
    rw [Selection.rendered]
    cases alias? with
    | none =>
      obtain ⟨c, cs, hchars, hc, -⟩ := named
      exact ⟨c, _, by rw [hchars]; rfl, .inl hc⟩
    | some a =>
      obtain ⟨c, cs, hchars, hc, -⟩ := aliased a rfl
      exact ⟨c, _, by rw [Selection.aliasText, hchars]; rfl, .inl hc⟩
  | inline =>
    rw [Selection.rendered]
    exact ⟨'.', _, rfl, .inr rfl⟩

theorem follows_rendered {t : Selection} (ht : t.Written) (s : List Char) :
    Follows [':', '(', '@', '\x7b'] (' ' :: (t.rendered ++ s)) := by
  obtain ⟨c, cs, htext, hc⟩ := exists_rendered ht
  rw [htext]
  cases hc with
  | inl hstart =>
    have hother : [':', '(', '@', '\x7b'].any isNameStart = false := by decide
    refine follows_space (isSolid_of_isNameStart hstart) (fun hmem => ?_) _
    exact List.any_eq_false.1 hother c hmem hstart
  | inr hdot => exact hdot ▸ follows_space (by decide) (by decide) _

def ReadsBack (t : Selection) : Prop :=
  ∀ bound rest, t.rendered.length ≤ bound → Follows [':', '(', '@', '\x7b'] rest →
    selection bound (t.rendered ++ rest) = some (t, rest)

theorem selectionSet_append {below : List Selection} (hne : below ≠ [])
    (hbelow : ∀ t ∈ below, t.Written) (hreads : ∀ t ∈ below, ReadsBack t)
    (hbound : (Selection.braced (below.map Selection.rendered)).length ≤ bound) (rest : List Char) :
    selectionSet bound (Selection.braced (below.map Selection.rendered) ++ rest) =
      some (below, rest) := by
  obtain ⟨t, others, rfl⟩ := List.exists_cons_of_ne_nil hne
  have htext : Selection.braced ((t :: others).map Selection.rendered) ++ rest =
      '\x7b' :: ' ' :: ([' '].intercalate ((t :: others).map Selection.rendered) ++
        ' ' :: '\x7d' :: rest) := by
    simp [Selection.braced]
  have henough : (t :: others).length ≤
      ([' '].intercalate ((t :: others).map Selection.rendered)).length + 1 :=
    length_le_intercalate Selection.rendered (t :: others) (by decide)
  rw [Selection.braced, List.length_cons, List.length_cons, List.length_append, List.length_cons,
    List.length_singleton] at hbound
  obtain ⟨bound, rfl⟩ : ∃ b, bound = b + 1 := ⟨bound - 1, by omega⟩
  have hlisted : Listed (selection bound) Selection.rendered [' '] (Follows [':', '(', '@', '\x7b'])
      (t :: others) (' ' :: '\x7d' :: rest) := by
    refine ⟨(selection_skips bound).append (by decide), fun u hu s => hreads u hu bound s ?_,
      fun t ht s => follows_rendered (hbelow t ht) s, follows_space (by decide) (by decide) rest,
      by cases bound <;> rfl⟩
    have hlength := length_text_le_intercalate Selection.rendered [' '] hu
    omega
  have hread := (selection_skips bound).many1 bound ' '
    ([' '].intercalate ((t :: others).map Selection.rendered) ++ ' ' :: '\x7d' :: rest) (by decide)
  rw [hlisted.many1 (by rw [List.length_cons] at henough; omega)] at hread
  rw [htext, selectionSet, bind_of_some (a := ()) rfl, bind_of_some hread,
    bind_of_some (a := ()) rfl]
  rfl

theorem readsBack {t : Selection} (ht : t.Written) : ReadsBack t := by
  induction ht with
  | @field alias? name args below aliased named given each ih =>
    intro bound rest hbound h
    have hpos := named.length_pos
    rw [Selection.rendered, Selection.renderedList_eq] at hbound
    simp only [List.length_append] at hbound
    obtain ⟨bound, rfl⟩ : ∃ b, bound = b + 1 := ⟨bound - 1, by omega⟩
    refine selection_field aliased named given (by omega) (fun hne => ?_) h
    refine selectionSet_append hne each ih ?_ rest
    rw [Selection.belowText, if_neg (by simpa using hne), List.length_cons] at hbound
    omega
  | @inline condition below named filled each ih =>
    intro bound rest hbound h
    rw [Selection.rendered, Selection.renderedList_eq] at hbound
    simp only [List.length_append, List.length_cons] at hbound
    obtain ⟨bound, rfl⟩ : ∃ b, bound = b + 1 := ⟨bound - 1, by omega⟩
    exact selection_inline named (selectionSet_append filled each ih (by omega) rest)

end Grammar

/-! ### What a text can hold -/

inductive Selection.Spelled : Selection → Prop
  | field {alias? : Option String} {name : String} {arguments : List Argument}
      {directives : List Directive} {below : List Selection} (aliased : ∀ a ∈ alias?, IsName a)
      (named : IsName name) (given : ∀ a ∈ arguments, a.Spelled) (each : ∀ t ∈ below, Spelled t) :
      Spelled (.field alias? name arguments directives below)
  | inline {condition? : Option String} {directives : List Directive} {below : List Selection}
      (named : ∀ c ∈ condition?, IsName c) (each : ∀ t ∈ below, Spelled t) :
      Spelled (.inline condition? directives below)
  | spread {name : String} {directives : List Directive} : Spelled (.spread name directives)

namespace Grammar
variable {bound : Nat}

theorem condition_yields : condition.Yields IsName :=
  Yields.token <| .andThen fun _ => .andThen fun _ => fun s => rawName_yields (s.dropWhile isSpace)

theorem selection_spelled_of
    (h : (selectionSet bound).Yields fun selections => ∀ t ∈ selections, t.Spelled) :
    (selection (bound + 1)).Yields Selection.Spelled := by
  have halias : (do let a ← Grammar.name; symbol ":"; return a : Reader String).Yields IsName :=
    name_yields.bind fun _ ha => .andThen fun _ => .pure ha
  rw [selection]
  refine .orElse ?field (.orElse ?inline ?spread)
  case field =>
    refine halias.maybe.bind fun alias? halias => name_yields.bind fun name hname => ?_
    refine (arguments_spelled bound).maybe.bind fun args? hargs => .andThen fun ds => ?_
    refine h.maybe.bind fun below? hbelow => .pure (.field halias hname ?_ ?_)
    · cases args? with
      | none => simp
      | some args => exact hargs args rfl
    · cases below? with
      | none => simp
      | some below => exact hbelow below rfl
  case inline =>
    refine .andThen fun _ => condition_yields.maybe.bind fun condition? hcondition => ?_
    exact .andThen fun ds => h.bind fun below hbelow => .pure (.inline hcondition hbelow)
  case spread =>
    refine .andThen fun _ => .andThen fun isCondition => ?_
    cases isCondition with
    | true => exact Yields.failure.bind fun _ h => False.elim h
    | false => exact .andThen fun _ => .andThen fun _ => .pure .spread

theorem selections_spelled (bound : Nat) :
    ((selectionSet bound).Yields fun selections => ∀ t ∈ selections, t.Spelled) ∧
      (selection bound).Yields Selection.Spelled := by
  induction bound with
  | zero =>
    rw [selectionSet, selection]
    exact ⟨.failure, .failure⟩
  | succ bound ih =>
    refine ⟨?_, selection_spelled_of ih.1⟩
    rw [selectionSet]
    refine .andThen fun _ => (ih.2.many1 bound).bind fun selections hselections => ?_
    exact .andThen fun _ => .pure hselections.2

end Grammar
end FederatedQuery
