import Mathlib.Data.List.Basic

set_option autoImplicit false

/- String literals in the text of an SQL statement: a literal starts at a single quote
and ends at the first one that is not doubled. -/
namespace Base.Sql

abbrev Text := List Char

/-- The single quote. -/
def quote : Char := Char.ofNat 39

/-- A statement's text: characters of its code, and literals by their values. -/
inductive Item where
  | char (c : Char)
  | literal (value : Text)
  | unterminated (value : Text)
  deriving DecidableEq, Repr

/-- Where the scanner stands: in code, in a literal, or behind a quote inside one. -/
inductive Mode where
  | code
  | inside (value : Text)
  | closing (value : Text)

def scan : Mode → Text → List Item
  | .code, [] => []
  | .code, c :: rest => if c = quote then scan (.inside []) rest else .char c :: scan .code rest
  | .inside value, [] => [.unterminated value]
  | .inside value, c :: rest =>
      if c = quote then scan (.closing value) rest else scan (.inside (value ++ [c])) rest
  | .closing value, [] => [.literal value]
  | .closing value, c :: rest =>
      if c = quote then scan (.inside (value ++ [quote])) rest
      else .literal value :: .char c :: scan .code rest

/-- A fixed text with values put between quotes at fixed places. -/
structure Template where
  first : Text
  /-- Each value with the fixed text behind it. -/
  values : List (Text × Text)

namespace Template

def render (t : Template) : Text :=
  t.first ++ t.values.flatMap fun value => quote :: (value.1 ++ quote :: value.2)

/-- What the writer of the template means: one literal for each value. -/
def items (t : Template) : List Item :=
  t.first.map .char ++ t.values.flatMap fun value => .literal value.1 :: value.2.map .char

/-- The fixed text has no quotes of its own, and no two values meet. -/
structure Fixed (t : Template) : Prop where
  first : quote ∉ t.first
  behind : ∀ value ∈ t.values, quote ∉ value.2 ∧ value.2 ≠ []

end Template

section Scan

variable (sofar rest : Text) (c : Char)

theorem scan_code_quote : scan .code (quote :: rest) = scan (.inside []) rest := by
  rw [scan, if_pos rfl]

theorem scan_code_other (other : c ≠ quote) : scan .code (c :: rest) = .char c :: scan .code rest := by
  rw [scan, if_neg other]

theorem scan_inside_quote : scan (.inside sofar) (quote :: rest) = scan (.closing sofar) rest := by
  rw [scan, if_pos rfl]

theorem scan_inside_other (other : c ≠ quote) :
    scan (.inside sofar) (c :: rest) = scan (.inside (sofar ++ [c])) rest := by
  rw [scan, if_neg other]

theorem scan_closing_quote : scan (.closing sofar) (quote :: rest) = scan (.inside (sofar ++ [quote])) rest := by
  rw [scan, if_pos rfl]

theorem scan_closing_other (other : c ≠ quote) :
    scan (.closing sofar) (c :: rest) = .literal sofar :: scan .code (c :: rest) := by
  rw [scan_code_other _ _ other, scan, if_neg other]

end Scan

theorem scan_code (text more : Text) (plain : quote ∉ text) :
    scan .code (text ++ more) = text.map .char ++ scan .code more := by
  induction text with
  | nil => rfl
  | cons c text ih =>
      rw [List.mem_cons, not_or] at plain
      rw [List.cons_append, scan_code_other _ _ (Ne.symm plain.1), ih plain.2]
      rfl

theorem scan_inside (sofar value : Text) (c : Char) (more : Text) (other : c ≠ quote) (plain : quote ∉ value) :
    scan (.inside sofar) (value ++ quote :: c :: more) = .literal (sofar ++ value) :: scan .code (c :: more) := by
  induction value generalizing sofar with
  | nil => rw [List.nil_append, scan_inside_quote, scan_closing_other _ _ _ other, List.append_nil]
  | cons d value ih =>
      rw [List.mem_cons, not_or] at plain
      rw [List.cons_append, scan_inside_other _ _ _ (Ne.symm plain.1), ih _ plain.2, List.append_assoc,
        List.singleton_append]

/-- What the scanner has read of a literal is the front of its value. -/
theorem sofar_of_scan (sofar text value : Text) (tail : List Item) :
    (scan (.inside sofar) text = .literal value :: tail → ∃ more, value = sofar ++ more) ∧
      (scan (.closing sofar) text = .literal value :: tail → ∃ more, value = sofar ++ more) := by
  induction text generalizing sofar with
  | nil =>
      constructor
      · intro scanned
        cases scanned
      · intro scanned
        cases scanned
        exact ⟨[], (List.append_nil _).symm⟩
  | cons c text ih =>
      by_cases here : c = quote
      · subst here
        rw [scan_inside_quote, scan_closing_quote]
        refine ⟨(ih sofar).2, fun scanned => ?_⟩
        obtain ⟨more, rfl⟩ := (ih (sofar ++ [quote])).1 scanned
        exact ⟨quote :: more, by rw [List.append_assoc, List.singleton_append]⟩
      · rw [scan_inside_other _ _ _ here, scan_closing_other _ _ _ here]
        constructor
        · intro scanned
          obtain ⟨more, rfl⟩ := (ih (sofar ++ [c])).1 scanned
          exact ⟨c :: more, by rw [List.append_assoc, List.singleton_append]⟩
        · intro scanned
          cases scanned
          exact ⟨[], (List.append_nil _).symm⟩

/-- A text that comes back as the value of its own literal has no quote. `count` are the
quotes that doubled ones have already left in front of it. -/
theorem plain_of_scan (value : Text) (count : Nat) (before : Text) (c : Char) (more : Text) (tail : List Item)
    (other : c ≠ quote)
    (scanned : scan (.inside before) (value ++ quote :: c :: more) =
      .literal (before ++ List.replicate count quote ++ value) :: tail) :
    count = 0 ∧ quote ∉ value := by
  match value with
  | [] =>
      rw [List.nil_append, scan_inside_quote, scan_closing_other _ _ _ other] at scanned
      have same := Item.literal.inj (List.cons.inj scanned).1
      rw [List.append_nil, List.self_eq_append_right, List.replicate_eq_nil_iff] at same
      exact ⟨same, List.not_mem_nil⟩
  | d :: value =>
      by_cases here : d = quote
      · subst here
        match value with
        | [] =>
            -- the closing quote is taken for the second one of a pair
            rw [List.singleton_append, scan_inside_quote, scan_closing_quote, scan_inside_other _ _ _ other] at scanned
            obtain ⟨behind, same⟩ := (sofar_of_scan _ _ _ _).1 scanned
            rw [List.append_assoc, List.append_assoc, List.append_assoc, List.append_cancel_left_eq,
              ← List.replicate_succ'] at same
            have member : c ∈ List.replicate (count + 1) quote := by
              rw [same]
              simp
            exact absurd (List.eq_of_mem_replicate member) other
        | e :: value =>
            by_cases doubled : e = quote
            · subst doubled
              rw [List.cons_append, List.cons_append, scan_inside_quote, scan_closing_quote] at scanned
              have move (rest : Text) : List.replicate count quote ++ quote :: rest =
                  quote :: (List.replicate count quote ++ rest) := by
                rw [← List.cons_append, ← List.replicate_succ, List.replicate_succ', List.append_assoc,
                  List.singleton_append]
              have next := plain_of_scan value (count + 1) (before ++ [quote]) c more tail other (by
                rw [scanned]
                simp only [List.append_assoc, List.cons_append, List.nil_append, List.replicate_succ, move])
              omega
            · rw [List.cons_append, List.cons_append, scan_inside_quote, scan_closing_other _ _ _ doubled] at scanned
              have same := congrArg List.length (Item.literal.inj (List.cons.inj scanned).1)
              simp only [List.length_append, List.length_cons] at same
              omega
      · rw [List.cons_append, scan_inside_other _ _ _ here] at scanned
        cases count with
        | zero =>
            have next := plain_of_scan value 0 (before ++ [d]) c more tail other (by
              rw [scanned]
              simp)
            exact ⟨rfl, fun member => by
              rcases List.mem_cons.mp member with same | later
              · exact here same.symm
              · exact next.2 later⟩
        | succ count =>
            obtain ⟨behind, same⟩ := (sofar_of_scan _ _ _ _).1 scanned
            rw [List.append_assoc, List.append_assoc, List.append_cancel_left_eq, List.replicate_succ,
              List.cons_append] at same
            exact absurd (List.cons.inj same).1.symm here

namespace Template

theorem scan_values (values : List (Text × Text)) (behind : ∀ value ∈ values, quote ∉ value.2 ∧ value.2 ≠ []) :
    scan .code (values.flatMap fun value => quote :: (value.1 ++ quote :: value.2)) =
        (values.flatMap fun value => Item.literal value.1 :: value.2.map .char) ↔
      ∀ value ∈ values, quote ∉ value.1 := by
  induction values with
  | nil => exact iff_of_true rfl (fun _ member => by cases member)
  | cons value values ih =>
      obtain ⟨text, fixed⟩ := value
      have here := behind _ List.mem_cons_self
      have later := ih (fun value member => behind value (List.mem_cons_of_mem _ member))
      obtain ⟨c, fixed, rfl⟩ := List.exists_cons_of_ne_nil here.2
      have other : c ≠ quote := fun same => here.1 (by rw [same]; exact List.mem_cons_self)
      simp only [List.flatMap_cons, List.cons_append, List.append_assoc, scan_code_quote]
      rw [List.forall_mem_cons]
      constructor
      · intro scanned
        have plain := (plain_of_scan text 0 [] c _ _ other scanned).2
        rw [scan_inside _ _ _ _ other plain, ← List.cons_append, scan_code _ _ here.1] at scanned
        refine ⟨plain, later.mp ?_⟩
        exact List.append_cancel_left (List.cons.inj scanned).2
      · rintro ⟨plain, rest⟩
        rw [scan_inside _ _ _ _ other plain, ← List.cons_append, scan_code _ _ here.1, later.mpr rest]
        rfl

/-- The statement is scanned as its writer means it exactly when no value has a quote. -/
theorem scan_render_iff (t : Template) (fixed : t.Fixed) :
    scan .code t.render = t.items ↔ ∀ value ∈ t.values, quote ∉ value.1 := by
  rw [render, items, scan_code _ _ fixed.first, List.append_cancel_left_eq]
  exact scan_values t.values fixed.behind

end Template

end Base.Sql
