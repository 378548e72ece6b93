import Mathlib.Data.List.Basic
import Mathlib.Tactic.Common

/-!
# Scanners

A scanner takes one lexeme after another off a text. Each of its rules has a
pattern, and where several rules match it takes the longest match, and the
first rule of those that match so much. Patterns are matched by derivatives, one
character at a time.

`scan_lexemes` is how a text is shown to be taken apart as it was put together:
every lexeme is matched by its rule and by no rule before it, and no rule
matches it with more of the text behind it.
-/

namespace Infinisql.Lib

variable {α κ : Type*}

/-! ## Patterns -/

inductive Pattern (α : Type*)
  | none
  | empty
  | one (p : α → Bool)
  | cat (r s : Pattern α)
  | alt (r s : Pattern α)
  | star (r : Pattern α)

namespace Pattern

/-- One or more. -/
def plus (r : Pattern α) : Pattern α := cat r (star r)

/-- A text that is matched character by character. -/
def each : List (α → Bool) → Pattern α
  | [] => empty
  | p :: ps => cat (one p) (each ps)

/-- The texts that the pattern matches. -/
inductive Matches : Pattern α → List α → Prop
  | empty : Matches empty []
  | one {p : α → Bool} {a : α} : p a = true → Matches (one p) [a]
  | cat {r s : Pattern α} {v w : List α} : Matches r v → Matches s w →
      Matches (cat r s) (v ++ w)
  | left {r s : Pattern α} {v : List α} : Matches r v → Matches (alt r s) v
  | right {r s : Pattern α} {v : List α} : Matches s v → Matches (alt r s) v
  | nil {r : Pattern α} : Matches (star r) []
  | more {r : Pattern α} {v w : List α} : Matches r v → Matches (star r) w →
      Matches (star r) (v ++ w)

/-- It matches the empty text. -/
def nullable : Pattern α → Bool
  | none => false
  | empty => true
  | one _ => false
  | cat r s => r.nullable && s.nullable
  | alt r s => r.nullable || s.nullable
  | star _ => true

/-- What it matches behind this character. -/
def deriv (a : α) : Pattern α → Pattern α
  | none => none
  | empty => none
  | one p => if p a then empty else none
  | cat r s =>
      if r.nullable then alt (cat (r.deriv a) s) (s.deriv a)
      else cat (r.deriv a) s
  | alt r s => alt (r.deriv a) (s.deriv a)
  | star r => cat (r.deriv a) (star r)

/-- The length of the longest match at the beginning of a text. -/
def longest : Pattern α → List α → Option ℕ
  | r, [] => if r.nullable then some 0 else Option.none
  | r, a :: w =>
      match (r.deriv a).longest w with
      | some n => some (n + 1)
      | Option.none => if r.nullable then some 0 else Option.none

theorem longest_nil (r : Pattern α) :
    r.longest [] = if r.nullable then some 0 else Option.none := by
  rw [longest]

variable {r s : Pattern α} {v w : List α} {a : α}

theorem not_matches_none : ¬ Matches none v := by
  intro h
  cases h

theorem matches_empty_iff : Matches empty v ↔ v = [] := by
  constructor
  · intro h
    cases h
    rfl
  · rintro rfl
    exact .empty

theorem matches_one_iff {p : α → Bool} :
    Matches (one p) v ↔ ∃ a, v = [a] ∧ p a = true := by
  constructor
  · intro h
    cases h with
    | one h => exact ⟨_, rfl, h⟩
  · rintro ⟨a, rfl, h⟩
    exact .one h

theorem matches_cat_iff : Matches (cat r s) v ↔
    ∃ v₁ v₂, v = v₁ ++ v₂ ∧ Matches r v₁ ∧ Matches s v₂ := by
  constructor
  · intro h
    cases h with
    | cat h₁ h₂ => exact ⟨_, _, rfl, h₁, h₂⟩
  · rintro ⟨v₁, v₂, rfl, h₁, h₂⟩
    exact .cat h₁ h₂

theorem matches_alt_iff :
    Matches (alt r s) v ↔ Matches r v ∨ Matches s v := by
  constructor
  · intro h
    cases h with
    | left h => exact .inl h
    | right h => exact .inr h
  · rintro (h | h)
    · exact .left h
    · exact .right h

theorem nullable_iff : r.nullable = true ↔ Matches r [] := by
  induction r with
  | none => simp [nullable, not_matches_none]
  | empty => simp [nullable, matches_empty_iff]
  | one p => simp [nullable, matches_one_iff]
  | cat r s ihr ihs =>
      rw [nullable, Bool.and_eq_true, ihr, ihs, matches_cat_iff]
      constructor
      · rintro ⟨hr, hs⟩
        exact ⟨[], [], rfl, hr, hs⟩
      · rintro ⟨v₁, v₂, h, hr, hs⟩
        obtain ⟨rfl, rfl⟩ := List.append_eq_nil_iff.mp h.symm
        exact ⟨hr, hs⟩
  | alt r s ihr ihs =>
      rw [nullable, Bool.or_eq_true, ihr, ihs, matches_alt_iff]
  | star r ih => exact iff_of_true rfl .nil

/-- A repetition that is not empty begins with one that is not. -/
theorem star_cons (h : Matches (star r) (a :: v)) :
    ∃ v₁ v₂, v = v₁ ++ v₂ ∧ Matches r (a :: v₁) ∧ Matches (star r) v₂ := by
  generalize hr : star r = r' at h
  generalize hw : a :: v = w at h
  induction h with
  | @more _ v₁ v₂ h₁ h₂ _ ih =>
      cases hr
      cases v₁ with
      | nil => exact ih rfl hw
      | cons b v₁ =>
          rw [List.cons_append] at hw
          injection hw with hb hv
          subst hb
          exact ⟨v₁, v₂, hv, h₁, h₂⟩
  | nil => cases hw
  | _ => cases hr

theorem matches_deriv_iff : Matches (r.deriv a) v ↔ Matches r (a :: v) := by
  induction r generalizing v with
  | none => simp [deriv, not_matches_none]
  | empty => simp [deriv, not_matches_none, matches_empty_iff]
  | one p =>
      rw [deriv, matches_one_iff]
      split
      · next hp =>
          rw [matches_empty_iff]
          constructor
          · rintro rfl
            exact ⟨a, rfl, hp⟩
          · rintro ⟨b, h, -⟩
            exact (List.cons.inj h).2
      · next hp =>
          refine iff_of_false not_matches_none ?_
          rintro ⟨b, h, hb⟩
          rw [← (List.cons.inj h).1] at hb
          exact hp hb
  | cat r s ihr ihs =>
      have hcat : Matches (cat r s) (a :: v) ↔
          Matches (cat (r.deriv a) s) v ∨
            Matches r [] ∧ Matches s (a :: v) := by
        rw [matches_cat_iff, matches_cat_iff]
        constructor
        · rintro ⟨v₁, v₂, h, hr, hs⟩
          cases v₁ with
          | nil =>
              rw [List.nil_append] at h
              exact .inr ⟨hr, h ▸ hs⟩
          | cons b v₁ =>
              rw [List.cons_append] at h
              injection h with hb hv
              subst hb
              exact .inl ⟨v₁, v₂, hv, ihr.mpr hr, hs⟩
        · rintro (⟨v₁, v₂, rfl, hr, hs⟩ | ⟨hr, hs⟩)
          · exact ⟨a :: v₁, v₂, rfl, ihr.mp hr, hs⟩
          · exact ⟨[], a :: v, rfl, hr, hs⟩
      rw [deriv, hcat]
      split
      · next hnull =>
          rw [matches_alt_iff, ihs]
          rw [nullable_iff] at hnull
          exact or_congr Iff.rfl ⟨fun h => ⟨hnull, h⟩, fun h => h.2⟩
      · next hnull =>
          rw [nullable_iff] at hnull
          exact ⟨.inl, fun h => h.resolve_right fun h => hnull h.1⟩
  | alt r s ihr ihs =>
      rw [deriv, matches_alt_iff, matches_alt_iff, ihr, ihs]
  | star r ih =>
      rw [deriv, matches_cat_iff]
      constructor
      · rintro ⟨v₁, v₂, rfl, h₁, h₂⟩
        exact .more (ih.mp h₁) h₂
      · intro h
        obtain ⟨v₁, v₂, rfl, h₁, h₂⟩ := star_cons h
        exact ⟨v₁, v₂, rfl, ih.mpr h₁, h₂⟩

/-! ## The longest match -/

variable {n : ℕ}

theorem longest_none (h : r.longest w = Option.none) {v v' : List α}
    (hw : w = v ++ v') : ¬ Matches r v := by
  induction w generalizing r v with
  | nil =>
      obtain ⟨rfl, -⟩ := List.append_eq_nil_iff.mp hw.symm
      rw [longest_nil] at h
      split at h
      · cases h
      · next hnull =>
          rw [nullable_iff] at hnull
          exact hnull
  | cons a w ih =>
      rw [longest] at h
      split at h
      · cases h
      · next hnone =>
          split at h
          · cases h
          · next hnull =>
              rw [nullable_iff] at hnull
              cases v with
              | nil => exact hnull
              | cons b v =>
                  injection hw with hb hw
                  subst hb
                  rw [← matches_deriv_iff]
                  exact ih hnone hw

theorem longest_matches (h : r.longest w = some n) :
    ∃ v v', w = v ++ v' ∧ v.length = n ∧ Matches r v := by
  induction w generalizing r n with
  | nil =>
      rw [longest_nil] at h
      split at h
      · next hnull =>
          cases h
          rw [nullable_iff] at hnull
          exact ⟨[], [], rfl, rfl, hnull⟩
      · cases h
  | cons a w ih =>
      rw [longest] at h
      split at h
      · next m hm =>
          cases h
          obtain ⟨v, v', rfl, hlen, hv⟩ := ih hm
          rw [matches_deriv_iff] at hv
          exact ⟨a :: v, v', rfl, congrArg (· + 1) hlen, hv⟩
      · split at h
        · next hnull =>
            cases h
            rw [nullable_iff] at hnull
            exact ⟨[], a :: w, rfl, rfl, hnull⟩
        · cases h

theorem longest_le (h : r.longest w = some n) {v v' : List α}
    (hw : w = v ++ v') (hv : Matches r v) : v.length ≤ n := by
  induction w generalizing r n v with
  | nil =>
      rw [List.append_eq_nil_iff.mp hw.symm |>.1]
      exact Nat.zero_le n
  | cons a w ih =>
      cases v with
      | nil => exact Nat.zero_le n
      | cons b v =>
          injection hw with hb hw
          subst hb
          rw [← matches_deriv_iff] at hv
          rw [longest] at h
          split at h
          · next m hm =>
              cases h
              exact Nat.succ_le_succ (ih hm hw hv)
          · next hnone => exact absurd hv (longest_none hnone hw)

/-- A match than which there is none longer. -/
theorem longest_of_matches (hv : Matches r v)
    (hmore : ∀ x y, w = x ++ y → x ≠ [] → ¬ Matches r (v ++ x)) :
    r.longest (v ++ w) = some v.length := by
  induction v generalizing r with
  | nil =>
      cases h : r.longest ([] ++ w) with
      | none => exact absurd hv (longest_none h rfl)
      | some n =>
          obtain ⟨x, y, hw, hlen, hx⟩ := longest_matches h
          cases x with
          | nil => rw [← hlen]
          | cons b x =>
              exact absurd hx (hmore (b :: x) y hw (List.cons_ne_nil b x))
  | cons a v ih =>
      rw [← matches_deriv_iff] at hv
      rw [List.cons_append, longest, ih hv]
      · rfl
      · intro x y hw hx hmatch
        rw [matches_deriv_iff] at hmatch
        exact hmore x y hw hx hmatch

end Pattern

/-! ## Rules -/

abbrev Rules (α κ : Type*) := List (Pattern α × κ)

namespace Rules

/-- The longest match of all rules, and the first rule that has it. -/
def pick : Rules α κ → List α → Option (ℕ × κ)
  | [], _ => none
  | (r, k) :: rules, w =>
      match r.longest w, pick rules w with
      | some n, some (m, k') => if m ≤ n then some (n, k) else some (m, k')
      | some n, none => some (n, k)
      | none, found => found

/-- The lexemes of a text, each with its rule. -/
def scan (rules : Rules α κ) : ℕ → List α → Option (List (List α × κ))
  | _, [] => some []
  | 0, _ => none
  | fuel + 1, w =>
      match pick rules w with
      | none => none
      | some (0, _) => none
      | some (n + 1, k) =>
          (scan rules fuel (w.drop (n + 1))).map ((w.take (n + 1), k) :: ·)

theorem pick_nil (w : List α) : pick ([] : Rules α κ) w = none := by
  rw [pick]

variable {rules : Rules α κ} {v w : List α} {k : κ} {n : ℕ}

/-- No rule matches more of the text than `v`. -/
def Ends (rules : Rules α κ) (v w : List α) : Prop :=
  ∀ rule ∈ rules, ∀ x y, w = x ++ y → x ≠ [] →
    ¬ rule.1.Matches (v ++ x)

/-- The rule is the first that matches the lexeme. -/
def Decides (rules : Rules α κ) (v : List α) (k : κ) : Prop :=
  ∃ before r after, rules = before ++ (r, k) :: after ∧ r.Matches v ∧
    ∀ rule ∈ before, ¬ rule.1.Matches v

/-- Of the rules that match there is a first. -/
theorem exists_decides {rule : Pattern α × κ} (hrule : rule ∈ rules)
    (h : rule.1.Matches v) :
    ∃ rule ∈ rules, rule.1.Matches v ∧ Decides rules v rule.2 := by
  induction rules with
  | nil => exact absurd hrule List.not_mem_nil
  | cons first rules ih =>
      by_cases hfirst : first.1.Matches v
      · exact ⟨first, List.mem_cons_self, hfirst, [], first.1, rules, rfl,
          hfirst, fun _ h => absurd h List.not_mem_nil⟩
      · rcases List.mem_cons.mp hrule with rfl | hrule
        · exact absurd h hfirst
        · obtain ⟨rule', hmem, hmatch, before, r, after, heq, hr, hbefore⟩ :=
            ih hrule
          exact ⟨rule', List.mem_cons_of_mem _ hmem, hmatch, first :: before, r,
            after, congrArg (first :: ·) heq, hr,
            List.forall_mem_cons.mpr ⟨hfirst, hbefore⟩⟩

/-- The rules behind the first do not matter. -/
theorem Decides.append {rules' : Rules α κ} (h : Decides rules v k) :
    Decides (rules ++ rules') v k := by
  obtain ⟨before, r, after, rfl, hr, hbefore⟩ := h
  exact ⟨before, r, after ++ rules', by rw [List.append_assoc]; rfl, hr,
    hbefore⟩

/-- There is only one first. -/
theorem Decides.unique {k' : κ} (h : Decides rules v k)
    (h' : Decides rules v k') : k = k' := by
  obtain ⟨before, r, after, rfl, hr, hbefore⟩ := h
  obtain ⟨before', r', after', heq, hr', hbefore'⟩ := h'
  rcases List.append_eq_append_iff.mp heq with ⟨u, rfl, hu⟩ | ⟨u, rfl, hu⟩
  · cases u with
    | nil =>
        cases hu
        rfl
    | cons rule u =>
        cases hu
        exact absurd hr (hbefore' _ (List.mem_append_right _
          List.mem_cons_self))
  · cases u with
    | nil =>
        cases hu
        rfl
    | cons rule u =>
        cases hu
        exact absurd hr' (hbefore _ (List.mem_append_right _
          List.mem_cons_self))

theorem pick_le (h : Ends rules v w) {m : ℕ}
    (hpick : pick rules (v ++ w) = some (m, k)) : m ≤ v.length := by
  induction rules with
  | nil => cases hpick
  | cons rule rules ih =>
      obtain ⟨r, k'⟩ := rule
      have hrest := ih fun rule hrule => h rule (List.mem_cons_of_mem _ hrule)
      have hle : ∀ n, r.longest (v ++ w) = some n → n ≤ v.length := by
        intro n hn
        obtain ⟨x, y, hxy, rfl, hx⟩ := Pattern.longest_matches hn
        by_contra hlt
        obtain ⟨u, rfl⟩ : ∃ u, x = v ++ u := by
          rcases List.append_eq_append_iff.mp hxy with ⟨u, hu, -⟩ | ⟨u, hu, -⟩
          · exact ⟨u, hu⟩
          · rw [hu, List.length_append] at hlt
            omega
        rw [List.append_assoc] at hxy
        refine h _ List.mem_cons_self u y (List.append_cancel_left hxy) ?_ hx
        rintro rfl
        rw [List.append_nil] at hlt
        exact hlt (Nat.le_refl _)
      rw [pick] at hpick
      split at hpick
      · next n m' k'' hn hm =>
          split at hpick
          · cases hpick
            exact hle _ hn
          · cases hpick
            exact hrest hm
      · next n hn hm =>
          cases hpick
          exact hle _ hn
      · exact hrest hpick

theorem pick_of_decides (h : Ends rules v w) (hk : Decides rules v k) :
    pick rules (v ++ w) = some (v.length, k) := by
  obtain ⟨before, r, after, rfl, hv, hbefore⟩ := hk
  induction before with
  | nil =>
      have hlong := Pattern.longest_of_matches hv
        (h (r, k) List.mem_cons_self)
      rw [List.nil_append, pick, hlong]
      cases hpick : pick after (v ++ w) with
      | none => rfl
      | some found =>
          obtain ⟨m, k'⟩ := found
          exact if_pos (pick_le (fun rule hrule =>
            h rule (List.mem_cons_of_mem _ hrule)) hpick)
  | cons rule before ih =>
      obtain ⟨r', k'⟩ := rule
      have hpick := ih (fun rule hrule =>
        h rule (List.mem_cons_of_mem _ hrule))
        fun rule hrule => hbefore rule (List.mem_cons_of_mem _ hrule)
      rw [List.cons_append, pick, hpick]
      cases hlong : r'.longest (v ++ w) with
      | none => rfl
      | some n =>
          obtain ⟨x, y, hxy, rfl, hx⟩ := Pattern.longest_matches hlong
          refine if_neg fun hle => ?_
          rcases List.append_eq_append_iff.mp hxy with ⟨u, hu, hw⟩ | ⟨u, hu, -⟩
          · subst hu
            cases u with
            | nil =>
                rw [List.append_nil] at hx
                exact hbefore _ List.mem_cons_self hx
            | cons b u =>
                exact h _ List.mem_cons_self (b :: u) y hw
                  (List.cons_ne_nil b u) hx
          · have hlen := congrArg List.length hu
            rw [List.length_append] at hlen
            have hnil : u = [] := List.length_eq_zero_iff.mp (by omega)
            rw [hnil, List.append_nil] at hu
            exact hbefore _ List.mem_cons_self (hu ▸ hx)

/-- What is picked is at the front of the text, and its rule is the first that
matches it. -/
theorem pick_some (h : pick rules w = some (n, k)) :
    ∃ v v', w = v ++ v' ∧ v.length = n ∧ Decides rules v k := by
  induction rules generalizing n k with
  | nil =>
      rw [pick_nil] at h
      cases h
  | cons rule rules ih =>
      obtain ⟨r, k'⟩ := rule
      have hhere : ∀ m, r.longest w = some m → ∃ v v', w = v ++ v' ∧
          v.length = m ∧ Decides ((r, k') :: rules) v k' := by
        intro m hm
        obtain ⟨v, v', hw, hlen, hv⟩ := Pattern.longest_matches hm
        exact ⟨v, v', hw, hlen, [], r, rules, rfl, hv,
          List.forall_mem_nil _⟩
      have hthere : ∀ m k'', pick rules w = some (m, k'') →
          (∀ m', r.longest w = some m' → m' < m) →
          ∃ v v', w = v ++ v' ∧ v.length = m ∧
            Decides ((r, k') :: rules) v k'' := by
        intro m k'' hm hlong
        obtain ⟨v, v', hw, hlen, before, r', after, heq, hv, hbefore⟩ := ih hm
        refine ⟨v, v', hw, hlen, (r, k') :: before, r', after,
          congrArg ((r, k') :: ·) heq, hv,
          List.forall_mem_cons.mpr ⟨fun hmatch => ?_, hbefore⟩⟩
        cases hr : r.longest w with
        | none => exact Pattern.longest_none hr hw hmatch
        | some m' =>
            have hle := Pattern.longest_le hr hw hmatch
            have hlt := hlong m' hr
            omega
      rw [pick] at h
      split at h
      · next m m' k'' hm hm' =>
          split at h
          · cases h
            exact hhere _ hm
          · next hle =>
              cases h
              refine hthere _ _ hm' fun m'' heq => ?_
              cases hm.symm.trans heq
              omega
      · next m hm hnone =>
          cases h
          exact hhere _ hm
      · next hnone =>
          refine hthere _ _ h fun m' heq => ?_
          rw [hnone] at heq
          cases heq

/-! ## Lexeme by lexeme -/

/-- Nothing of a text is left out, and each lexeme is what its rule is the
first to match. -/
theorem scan_some {lexemes : List (List α × κ)} : ∀ {fuel : ℕ} {w : List α},
    scan rules fuel w = some lexemes → lexemes.flatMap Prod.fst = w ∧
      ∀ lexeme ∈ lexemes, Decides rules lexeme.1 lexeme.2 := by
  intro fuel
  induction fuel generalizing lexemes with
  | zero =>
      intro w h
      cases w with
      | nil =>
          cases h
          exact ⟨rfl, List.forall_mem_nil _⟩
      | cons a w => cases h
  | succ fuel ih =>
      intro w h
      cases w with
      | nil =>
          cases h
          exact ⟨rfl, List.forall_mem_nil _⟩
      | cons a w =>
          rw [scan] at h
          · split at h
            · cases h
            · cases h
            · next n k hpick =>
                obtain ⟨rest, hrest, rfl⟩ := Option.map_eq_some_iff.mp h
                obtain ⟨v, v', hw, hlen, hk⟩ := pick_some hpick
                obtain ⟨htext, hall⟩ := ih hrest
                have htake : (a :: w).take (n + 1) = v := by
                  rw [hw]
                  exact List.take_left' hlen
                refine ⟨?_, List.forall_mem_cons.mpr ⟨?_, hall⟩⟩
                · rw [List.flatMap_cons, htext]
                  exact List.take_append_drop _ _
                · rw [htake]
                  exact hk
          · exact List.cons_ne_nil _ _

/-- Each lexeme is what the scanner takes where it stands. -/
def Taken (rules : Rules α κ) : List (List α × κ) → Prop
  | [] => True
  | (v, k) :: lexemes => v ≠ [] ∧ Decides rules v k ∧
      Ends rules v (lexemes.flatMap Prod.fst) ∧ Taken rules lexemes

theorem scan_lexemes : ∀ {lexemes : List (List α × κ)} {fuel : ℕ},
    Taken rules lexemes → (lexemes.flatMap Prod.fst).length ≤ fuel →
    scan rules fuel (lexemes.flatMap Prod.fst) = some lexemes
  | [], fuel, _, _ => by cases fuel <;> rfl
  | ([], k) :: lexemes, _, h, _ => absurd rfl h.1
  | (a :: v, k) :: lexemes, 0, _, hfuel => absurd hfuel (by simp)
  | (a :: v, k) :: lexemes, fuel + 1, h, hfuel => by
      obtain ⟨-, hk, hends, hrest⟩ := h
      rw [List.flatMap_cons, List.length_append, List.length_cons] at hfuel
      rw [List.flatMap_cons]
      have hpick := pick_of_decides hends hk
      dsimp only at hpick ⊢
      rw [List.cons_append, scan, ← List.cons_append, hpick, List.length_cons]
      · dsimp only
        rw [← List.length_cons (a := a), List.take_left, List.drop_left,
          scan_lexemes hrest (by omega)]
        rfl
      · exact fun h => List.cons_ne_nil _ _ h

end Rules

end Infinisql.Lib
