import Mathlib.Data.List.Basic

/-!
# Regular expressions with a look ahead

What a backtracking matcher decides, as a relation: that an expression reads a
stretch of the subject, with what stands before and behind it in sight. An
expression that looks at neither has a language of its own, `Reads`, and a
sequence of such expressions, of characters, of `.` and of `.*`, is among these.

A negative look ahead reads nothing and forbids that its expression reads
anything from there. `fullMatch_without` is about the idiom `^((?!r).)*$`: it
goes over the subject one character at a time, and at each of them `r` must not
begin. So it matches what `r` occurs nowhere in, which is more than that `r`
does not match.
-/

namespace Infinisql.Lib

/-- The expressions. `group` is a pair of parentheses, `notAhead` is
`(?!…)`. -/
inductive Regex (α : Type*)
  | empty
  | char (c : α)
  | any
  | cat (r s : Regex α)
  | star (r : Regex α)
  | group (r : Regex α)
  | notAhead (r : Regex α)
  | lineStart
  | lineEnd

namespace Regex

variable {α : Type*} {newline : α} {r s : Regex α} {u v w : List α}

/-- Repeated reading: what is read comes to stand before the rest. -/
inductive Repeat (reads : List α → List α → List α → Prop) :
    List α → List α → List α → Prop
  | nil (u w : List α) : Repeat reads u [] w
  | cons {u v v' w : List α} : reads u v (v' ++ w) →
      Repeat reads (u ++ v) v' w → Repeat reads u (v ++ v') w

/-- The expression reads `v` behind `u` and before `w`. A `.` reads no newline,
and `$` may stand before one that is the last character. -/
def Matches (newline : α) : Regex α → List α → List α → List α → Prop
  | empty, _, v, _ => v = []
  | char c, _, v, _ => v = [c]
  | any, _, v, _ => ∃ c, c ≠ newline ∧ v = [c]
  | cat r s, u, v, w => ∃ v₁ v₂, v = v₁ ++ v₂ ∧
      Matches newline r u v₁ (v₂ ++ w) ∧ Matches newline s (u ++ v₁) v₂ w
  | star r, u, v, w => Repeat (Matches newline r) u v w
  | group r, u, v, w => Matches newline r u v w
  | notAhead r, u, v, w => v = [] ∧
      ∀ x y, w = x ++ y → ¬ Matches newline r u x y
  | lineStart, u, v, _ => v = [] ∧ u = []
  | lineEnd, _, v, w => v = [] ∧ (w = [] ∨ w = [newline])

/-- The whole subject is read. -/
def FullMatch (newline : α) (r : Regex α) (subject : List α) : Prop :=
  Matches newline r [] subject []

/-- What the expression reads depends on nothing around it. -/
def Reads (newline : α) (r : Regex α) (language : List α → Prop) : Prop :=
  ∀ u v w, Matches newline r u v w ↔ language v

theorem reads_empty : Reads newline (empty : Regex α) (· = []) :=
  fun _ _ _ => Iff.rfl

theorem reads_char {c : α} : Reads newline (char c) (· = [c]) :=
  fun _ _ _ => Iff.rfl

theorem reads_any :
    Reads newline (any : Regex α) fun v => ∃ c, c ≠ newline ∧ v = [c] :=
  fun _ _ _ => Iff.rfl

theorem Reads.cat {l l' : List α → Prop} (hr : Reads newline r l)
    (hs : Reads newline s l') : Reads newline (r.cat s) fun v =>
      ∃ v₁ v₂, v = v₁ ++ v₂ ∧ l v₁ ∧ l' v₂ := by
  intro u v w
  refine exists_congr fun v₁ => exists_congr fun v₂ =>
    and_congr_right fun _ => ?_
  rw [hr u v₁ (v₂ ++ w), hs (u ++ v₁) v₂ w]

/-- Anything but newlines. -/
theorem reads_star_any : Reads newline (star (any : Regex α))
    fun v => ∀ c ∈ v, c ≠ newline := by
  intro u v w
  constructor
  · intro h
    induction h with
    | nil u w => exact fun c hc => absurd hc (by simp)
    | cons hread _ ih =>
        obtain ⟨c, hc, rfl⟩ := hread
        exact List.forall_mem_cons.mpr ⟨hc, ih⟩
  · intro h
    induction v generalizing u with
    | nil => exact .nil u w
    | cons c v ih =>
        obtain ⟨hc, hv⟩ := List.forall_mem_cons.mp h
        exact .cons (v := [c]) ⟨c, hc, rfl⟩ (ih _ hv)

/-! ## Where nothing begins -/

/-- `((?!r).)*` -/
def without (r : Regex α) : Regex α := star (group (cat (notAhead r) any))

/-- `^((?!r).)*$` -/
def lineWithout (r : Regex α) : Regex α :=
  cat lineStart (cat (without r) lineEnd)

theorem matches_step {l : List α → Prop} (hr : Reads newline r l) :
    Matches newline (group (cat (notAhead r) any)) u v w ↔
      ∃ c, v = [c] ∧ c ≠ newline ∧ ∀ x y, c :: w = x ++ y → ¬ l x := by
  constructor
  · rintro ⟨v₁, v₂, rfl, ⟨rfl, hnone⟩, c, hc, rfl⟩
    refine ⟨c, rfl, hc, fun x y hxy => ?_⟩
    rw [← hr u x y]
    exact hnone x y hxy
  · rintro ⟨c, rfl, hc, hnone⟩
    refine ⟨[], [c], rfl, ⟨rfl, fun x y hxy => ?_⟩, c, hc, rfl⟩
    rw [hr u x y]
    exact hnone x y hxy

/-- No position of what is read is a newline, and at none of them does a word of
the language begin. -/
theorem matches_without {l : List α → Prop} (hr : Reads newline r l) :
    Matches newline (without r) u v w ↔
      ∀ a c b, v = a ++ c :: b →
        c ≠ newline ∧ ∀ x y, c :: b ++ w = x ++ y → ¬ l x := by
  constructor
  · intro h
    induction h with
    | nil u w =>
        intro a c b hsplit
        exact absurd hsplit (by simp)
    | @cons u v v' w hread _ ih =>
        obtain ⟨c, rfl, hc, hnone⟩ := (matches_step hr).mp hread
        intro a d b hsplit
        cases a with
        | nil =>
            rw [List.nil_append, List.singleton_append] at hsplit
            injection hsplit with hhead htail
            subst hhead htail
            exact ⟨hc, hnone⟩
        | cons a' a =>
            rw [List.singleton_append, List.cons_append] at hsplit
            injection hsplit with _ htail
            exact ih a d b htail
  · intro h
    induction v generalizing u with
    | nil => exact .nil u w
    | cons c v ih =>
        obtain ⟨hc, hnone⟩ := h [] c v rfl
        refine .cons (v := [c]) ((matches_step hr).mpr ⟨c, rfl, hc, hnone⟩) ?_
        exact ih fun a d b hsplit => h (c :: a) d b (by rw [hsplit]; rfl)

theorem fullMatch_without {l : List α → Prop} (hr : Reads newline r l) :
    FullMatch newline (lineWithout r) v ↔
      ∀ a c b, v = a ++ c :: b →
        c ≠ newline ∧ ∀ x y, c :: b = x ++ y → ¬ l x := by
  have hall := matches_without (u := []) (v := v) (w := []) hr
  simp only [List.append_nil] at hall
  rw [← hall]
  constructor
  · rintro ⟨v₁, v₂, rfl, ⟨rfl, -⟩, v₃, v₄, rfl, hread, rfl, -⟩
    simpa using hread
  · intro hread
    refine ⟨[], v, rfl, ⟨rfl, rfl⟩, v, [], (List.append_nil v).symm, ?_, rfl,
      .inl rfl⟩
    simpa using hread

end Regex

end Infinisql.Lib
