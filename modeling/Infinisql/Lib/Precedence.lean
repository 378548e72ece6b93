import Infinisql.Lib.Steps
import Mathlib.Data.List.Basic

/-!
# Shift and reduce, by precedence

Terms of atoms, brackets, operators before, between and behind, as a machine
with a stack reads them. The text alone does not say which term is meant: where
a rule could end and an operator comes next, the machine may reduce by the rule
or shift the operator. `resolve` decides this once for each rule and operator,
and it may call the text wrong.

No precedence needs to be behind `resolve`. What it comes to is said of the
edges of a term: `Resolved` asks that every rule that is open at the end of a
left operand is reduced at the operator behind it, and that every operator that
an operand begins with is shifted. The machine reads the resolved terms and no
others (`parse_sound`, `parse_complete`), so no text has two of them.
-/

namespace Infinisql.Lib.Precedence

variable {τ α ρ υ β π : Type*}

/-! ## Terms -/

inductive Term (α ρ υ β π : Type*)
  | atom (a : α)
  | bracket (p : ρ) (e : Term α ρ υ β π)
  | unary (u : υ) (e : Term α ρ υ β π)
  | binary (left : Term α ρ υ β π) (b : β) (right : Term α ρ υ β π)
  | trailing (e : Term α ρ υ β π) (q : π)
  deriving DecidableEq

/-- What a term can begin with. -/
inductive First (α ρ υ : Type*)
  | atom (a : α)
  | bracket (p : ρ)
  | unary (u : υ)

/-- An operator that can come behind a term. -/
inductive Op (β π : Type*)
  | binary (b : β)
  | trailing (q : π)
  deriving DecidableEq

/-- A rule that ends with a term. -/
inductive Rule (υ β : Type*)
  | unary (u : υ)
  | binary (b : β)
  deriving DecidableEq

inductive Resolution
  | reduce
  | shift
  | error
  deriving DecidableEq

/-- How each part of a term is spelled. -/
structure Spelling (τ α ρ υ β π : Type*) where
  atom : α → List τ
  bracket : ρ → List τ
  unary : υ → List τ
  binary : β → List τ
  trailing : π → List τ
  close : List τ

namespace Spelling

variable (S : Spelling τ α ρ υ β π)

def first : First α ρ υ → List τ
  | .atom a => S.atom a
  | .bracket p => S.bracket p
  | .unary u => S.unary u

def op : Op β π → List τ
  | .binary b => S.binary b
  | .trailing q => S.trailing q

end Spelling

namespace Term

def text (S : Spelling τ α ρ υ β π) : Term α ρ υ β π → List τ
  | atom a => S.atom a
  | bracket p e => S.bracket p ++ (e.text S ++ S.close)
  | unary u e => S.unary u ++ e.text S
  | binary left b right => left.text S ++ (S.binary b ++ right.text S)
  | trailing e q => e.text S ++ S.trailing q

/-- The rules that are open where the term ends, the innermost first. -/
def rules : Term α ρ υ β π → List (Rule υ β)
  | atom _ => []
  | bracket _ _ => []
  | unary u e => e.rules ++ [.unary u]
  | binary _ b right => right.rules ++ [.binary b]
  | trailing _ _ => []

/-- The operators that are shifted onto what was there before the term. -/
def ops : Term α ρ υ β π → List (Op β π)
  | atom _ => []
  | bracket _ _ => []
  | unary _ _ => []
  | binary left b _ => left.ops ++ [.binary b]
  | trailing e q => e.ops ++ [.trailing q]

/-- Every operator is read as `resolve` has it. -/
def Resolved (resolve : Rule υ β → Op β π → Resolution) :
    Term α ρ υ β π → Prop
  | atom _ => True
  | bracket _ e => e.Resolved resolve
  | unary u e => e.Resolved resolve ∧
      ∀ o ∈ e.ops, resolve (.unary u) o = .shift
  | binary left b right => left.Resolved resolve ∧ right.Resolved resolve ∧
      (∀ r ∈ left.rules, resolve r (.binary b) = .reduce) ∧
      ∀ o ∈ right.ops, resolve (.binary b) o = .shift
  | trailing e q => e.Resolved resolve ∧
      ∀ r ∈ e.rules, resolve r (.trailing q) = .reduce

/-- A property of all atoms. -/
def Each (P : α → Prop) : Term α ρ υ β π → Prop
  | atom a => P a
  | bracket _ e => e.Each P
  | unary _ e => e.Each P
  | binary left _ right => left.Each P ∧ right.Each P
  | trailing e _ => e.Each P

end Term

/-! ## The machine -/

/-- How what comes next is taken off the text. -/
structure Reader (τ α ρ υ β π : Type*) where
  first : List τ → Option (First α ρ υ × List τ)
  op : List τ → Option (Op β π × List τ)
  close : List τ → Option (List τ)

/-- What waits on the stack for the term that is being read. -/
inductive Frame (α ρ υ β π : Type*)
  | bracket (p : ρ)
  | unary (u : υ)
  | binary (left : Term α ρ υ β π) (b : β)

namespace Frame

def fill (e : Term α ρ υ β π) : Frame α ρ υ β π → Term α ρ υ β π
  | bracket p => .bracket p e
  | unary u => .unary u e
  | binary left b => .binary left b e

/-- It is the beginning of a rule that ends with the term. -/
def Ends : Frame α ρ υ β π → Prop
  | bracket _ => False
  | _ => True

end Frame

abbrev Stack (α ρ υ β π : Type*) := List (Frame α ρ υ β π)

/-- The rule on top is reduced, the operator is shifted, or neither. -/
def Stack.resolve (resolve : Rule υ β → Op β π → Resolution) (o : Op β π) :
    Stack α ρ υ β π → Resolution
  | [] => .shift
  | .bracket _ :: _ => .shift
  | .unary u :: _ => resolve (.unary u) o
  | .binary _ b :: _ => resolve (.binary b) o

inductive State (τ α ρ υ β π : Type*)
  | need (stack : Stack α ρ υ β π) (ts : List τ)
  | got (stack : Stack α ρ υ β π) (e : Term α ρ υ β π) (ts : List τ)
  | done (e : Term α ρ υ β π) (ts : List τ)
  | failed

def shift (stack : Stack α ρ υ β π) (e : Term α ρ υ β π) (ts : List τ) :
    Op β π → State τ α ρ υ β π
  | .binary b => .need (.binary e b :: stack) ts
  | .trailing q => .got stack (.trailing e q) ts

def reduce (e : Term α ρ υ β π) (ts : List τ) :
    Stack α ρ υ β π → State τ α ρ υ β π
  | [] => .failed
  | frame :: stack => .got stack (frame.fill e) ts

/-- What becomes of a term that no operator follows. -/
def finish (close : List τ → Option (List τ)) (e : Term α ρ υ β π)
    (ts : List τ) : Stack α ρ υ β π → State τ α ρ υ β π
  | [] => .done e ts
  | .bracket p :: stack =>
      match close ts with
      | none => .failed
      | some ts' => .got stack (.bracket p e) ts'
  | frame :: stack => .got stack (frame.fill e) ts

def step (R : Reader τ α ρ υ β π)
    (resolve : Rule υ β → Op β π → Resolution) :
    State τ α ρ υ β π → State τ α ρ υ β π
  | .need stack ts =>
      match R.first ts with
      | none => .failed
      | some (.atom a, ts') => .got stack (.atom a) ts'
      | some (.bracket p, ts') => .need (.bracket p :: stack) ts'
      | some (.unary u, ts') => .need (.unary u :: stack) ts'
  | .got stack e ts =>
      match R.op ts with
      | none => finish R.close e ts stack
      | some (o, ts') =>
          match stack.resolve resolve o with
          | .reduce => reduce e ts stack
          | .shift => shift stack e ts' o
          | .error => .failed
  | .done e ts => .done e ts
  | .failed => .failed

def State.result : State τ α ρ υ β π → Option (Term α ρ υ β π × List τ)
  | done e ts => some (e, ts)
  | _ => none

/-- A term, and what stands behind it. -/
def parse (R : Reader τ α ρ υ β π)
    (resolve : Rule υ β → Op β π → Resolution) (ts : List τ) :
    Option (Term α ρ υ β π × List τ) :=
  ((step R resolve)^[2 * ts.length + 1] (.need [] ts)).result

/-! ## What is asked of a reader -/

variable {R : Reader τ α ρ υ β π} {S : Spelling τ α ρ υ β π}
  {resolve : Rule υ β → Op β π → Resolution} {Ends : List τ → Prop}
  {good : α → Prop} {e t : Term α ρ υ β π} {stack : Stack α ρ υ β π}
  {ts rest input : List τ} {o : Op β π} {r : Rule υ β}

/-- It takes something each time. -/
structure Reader.Consumes (R : Reader τ α ρ υ β π) : Prop where
  first : ∀ {f ts rest}, R.first ts = some (f, rest) →
    rest.length < ts.length
  op : ∀ {o ts rest}, R.op ts = some (o, rest) → rest.length < ts.length
  close : ∀ {ts rest}, R.close ts = some rest → rest.length < ts.length

/-- What it takes is spelled that way. -/
structure Reader.Sound (R : Reader τ α ρ υ β π)
    (S : Spelling τ α ρ υ β π) : Prop where
  first : ∀ {f ts rest}, R.first ts = some (f, rest) → ts = S.first f ++ rest
  op : ∀ {o ts rest}, R.op ts = some (o, rest) → ts = S.op o ++ rest
  close : ∀ {ts rest}, R.close ts = some rest → ts = S.close ++ rest

/-- It takes what is spelled that way, an atom if the text behind it can end
one. -/
structure Reader.Complete (R : Reader τ α ρ υ β π) (S : Spelling τ α ρ υ β π)
    (resolve : Rule υ β → Op β π → Resolution) (Ends : List τ → Prop)
    (good : α → Prop) : Prop where
  atom : ∀ {a rest}, good a → Ends rest →
    R.first (S.atom a ++ rest) = some (.atom a, rest)
  bracket : ∀ {p rest} {e : Term α ρ υ β π}, e.Resolved resolve → e.Each good →
    R.first (S.bracket p ++ (e.text S ++ (S.close ++ rest))) =
      some (.bracket p, e.text S ++ (S.close ++ rest))
  unary : ∀ {u rest} {e : Term α ρ υ β π}, e.Resolved resolve → e.Each good →
    R.first (S.unary u ++ (e.text S ++ rest)) =
      some (.unary u, e.text S ++ rest)
  op : ∀ {o rest}, R.op (S.op o ++ rest) = some (o, rest)
  op_close : ∀ {rest}, R.op (S.close ++ rest) = none
  close : ∀ {rest}, R.close (S.close ++ rest) = some rest
  ends_op : ∀ {o rest}, Ends (S.op o ++ rest)
  ends_close : ∀ {rest}, Ends (S.close ++ rest)

/-! ## The machine halts -/

def State.size : State τ α ρ υ β π → ℕ
  | need stack ts => 2 * ts.length + stack.length + 1
  | got stack _ ts => 2 * ts.length + stack.length + 1
  | done _ _ => 0
  | failed => 0

theorem size_finish (hR : R.Consumes) :
    (finish R.close e ts stack).size < (State.got stack e ts).size := by
  cases stack with
  | nil => exact Nat.succ_pos _
  | cons frame stack =>
      cases frame with
      | bracket p =>
          rw [finish]
          split
          · exact Nat.succ_pos _
          · next ts' h =>
              have := hR.close h
              simp only [State.size, List.length_cons]
              omega
      | unary u => simp [finish, State.size]
      | binary left b => simp [finish, State.size]

theorem size_step (hR : R.Consumes) {s : State τ α ρ υ β π}
    (hs : s.size ≠ 0) : (step R resolve s).size < s.size := by
  cases s with
  | need stack ts =>
      rw [step]
      split
      · exact Nat.succ_pos _
      all_goals
        next h =>
          have := hR.first h
          simp only [State.size, List.length_cons]
          omega
  | got stack e ts =>
      rw [step]
      split
      · exact size_finish hR
      · next o ts' h =>
          have := hR.op h
          split
          · cases stack with
            | nil => exact Nat.succ_pos _
            | cons frame stack => simp [reduce, State.size]
          · cases o with
            | binary b =>
                simp only [shift, State.size, List.length_cons]
                omega
            | trailing q =>
                simp only [shift, State.size]
                omega
          · exact Nat.succ_pos _
  | done e ts => exact absurd rfl hs
  | failed => exact absurd rfl hs

theorem step_of_size {s : State τ α ρ υ β π} (hs : s.size = 0) :
    step R resolve s = s := by
  cases s with
  | need stack ts => exact absurd hs (Nat.succ_ne_zero _)
  | got stack e ts => exact absurd hs (Nat.succ_ne_zero _)
  | done e ts => rfl
  | failed => rfl

theorem size_iterate (hR : R.Consumes) (s : State τ α ρ υ β π) (k : ℕ) :
    ((step R resolve)^[k] s).size ≤ s.size - k := by
  induction k with
  | zero => exact Nat.le_refl _
  | succ k ih =>
      rw [Function.iterate_succ_apply']
      by_cases h : ((step R resolve)^[k] s).size = 0
      · rw [step_of_size h, h]
        exact Nat.zero_le _
      · have hlt : (step R resolve ((step R resolve)^[k] s)).size <
            ((step R resolve)^[k] s).size := size_step hR h
        omega

/-- The machine ends where it gets to and stays. -/
theorem run_of_gets (hR : R.Consumes) {s : State τ α ρ υ β π}
    (hs : s.size = 0)
    (h : Attains (step R resolve) (fun _ => False) (.need [] ts) (· = s)) :
    (step R resolve)^[2 * ts.length + 1] (.need [] ts) = s := by
  obtain ⟨k, hk | hk⟩ := h
  · have hsize : ((step R resolve)^[2 * ts.length + 1] (.need [] ts)).size ≤
        (.need [] ts : State τ α ρ υ β π).size - (2 * ts.length + 1) :=
      size_iterate hR _ _
    have hzero := Nat.le_zero.mp (Nat.le_trans hsize (by simp [State.size]))
    exact fixed_unique (step_of_size hzero) (step_of_size hs) rfl hk
  · exact hk.elim

theorem parse_of_gets (hR : R.Consumes)
    (h : Attains (step R resolve) (fun _ => False) (.need [] ts)
      (· = .done e rest)) : parse R resolve ts = some (e, rest) := by
  rw [parse, run_of_gets hR rfl h]
  rfl

theorem parse_of_fails (hR : R.Consumes)
    (h : Attains (step R resolve) (fun _ => False) (.need [] ts)
      (· = .failed)) : parse R resolve ts = none := by
  rw [parse, run_of_gets hR rfl h]
  rfl

/-- What is left of a text of this length. -/
def State.Within (n : ℕ) : State τ α ρ υ β π → Prop
  | need _ ts => ts.length ≤ n
  | got _ _ ts => ts.length < n
  | done _ ts => ts.length < n
  | failed => True

theorem within_finish (hR : R.Consumes) {n : ℕ} (h : ts.length < n) :
    (finish R.close e ts stack).Within n := by
  cases stack with
  | nil => exact h
  | cons frame stack =>
      cases frame with
      | bracket p =>
          rw [finish]
          split
          · trivial
          · next hclose => exact Nat.lt_trans (hR.close hclose) h
      | unary u => exact h
      | binary left b => exact h

theorem within_step (hR : R.Consumes) {n : ℕ} {s : State τ α ρ υ β π}
    (h : s.Within n) : (step R resolve s).Within n := by
  cases s with
  | need stack ts =>
      rw [step]
      split
      · trivial
      · next hfirst => exact Nat.lt_of_lt_of_le (hR.first hfirst) h
      · next hfirst => exact Nat.le_of_lt (Nat.lt_of_lt_of_le (hR.first hfirst) h)
      · next hfirst => exact Nat.le_of_lt (Nat.lt_of_lt_of_le (hR.first hfirst) h)
  | got stack e ts =>
      rw [step]
      split
      · exact within_finish hR h
      · next o ts' hop =>
          have hlt := Nat.lt_trans (hR.op hop) h
          split
          · cases stack with
            | nil => trivial
            | cons frame stack => exact h
          · cases o with
            | binary b => exact Nat.le_of_lt hlt
            | trailing q => exact hlt
          · trivial
  | done e ts => exact h
  | failed => trivial

/-- What every step keeps holds of what is read. -/
theorem parse_keeps {P : State τ α ρ υ β π → Prop} (hstart : P (.need [] ts))
    (hstep : ∀ s, P s → P (step R resolve s))
    (h : parse R resolve ts = some (e, rest)) : P (.done e rest) := by
  have hkept := iterate_of_closed hstart hstep (2 * ts.length + 1)
  rw [parse] at h
  cases hs : (step R resolve)^[2 * ts.length + 1] (.need [] ts) with
  | need stack ts' => rw [hs] at h; cases h
  | got stack e ts' => rw [hs] at h; cases h
  | done e ts' =>
      rw [hs] at h hkept
      cases h
      exact hkept
  | failed => rw [hs] at h; cases h

/-- A term takes something off the text. -/
theorem parse_shortens (hR : R.Consumes)
    (h : parse R resolve ts = some (e, rest)) : rest.length < ts.length :=
  parse_keeps (P := State.Within ts.length) (Nat.le_refl ts.length)
    (fun _ => within_step hR) h

/-! ## What it reads is resolved -/

/-- The rule is reduced before this text. -/
def Reduces (R : Reader τ α ρ υ β π)
    (resolve : Rule υ β → Op β π → Resolution) (ts : List τ)
    (r : Rule υ β) : Prop :=
  ∀ o ts', R.op ts = some (o, ts') → resolve r o = .reduce

def Frame.text (S : Spelling τ α ρ υ β π) : Frame α ρ υ β π → List τ
  | bracket p => S.bracket p
  | unary u => S.unary u
  | binary left b => left.text S ++ S.binary b

def Stack.text (S : Spelling τ α ρ υ β π) : Stack α ρ υ β π → List τ
  | [] => []
  | frame :: stack => Stack.text S stack ++ frame.text S

/-- What is on the stack was read as `resolve` has it. -/
def Stack.Resolved (resolve : Rule υ β → Op β π → Resolution) :
    Stack α ρ υ β π → Prop
  | [] => True
  | .bracket _ :: stack => Stack.Resolved resolve stack
  | .unary _ :: stack => Stack.Resolved resolve stack
  | .binary left b :: stack => Stack.Resolved resolve stack ∧
      left.Resolved resolve ∧
      (∀ r ∈ left.rules, resolve r (.binary b) = .reduce) ∧
      ∀ o ∈ left.ops ++ [.binary b],
        Stack.resolve resolve o stack = .shift

/-- What has been read so far of a text. -/
def State.Good (R : Reader τ α ρ υ β π) (S : Spelling τ α ρ υ β π)
    (resolve : Rule υ β → Op β π → Resolution) (input : List τ) :
    State τ α ρ υ β π → Prop
  | need stack ts => stack.text S ++ ts = input ∧ stack.Resolved resolve
  | got stack e ts => stack.text S ++ (e.text S ++ ts) = input ∧
      stack.Resolved resolve ∧ e.Resolved resolve ∧
      (∀ r ∈ e.rules, Reduces R resolve ts r) ∧
      ∀ o ∈ e.ops, stack.resolve resolve o = .shift
  | done e ts => e.text S ++ ts = input ∧ e.Resolved resolve ∧ R.op ts = none
  | failed => True

theorem good_atom {a : α} (hfirst : ts = S.atom a ++ rest)
    (h : (State.need stack ts).Good R S resolve input) :
    (State.got stack (.atom a) rest).Good R S resolve input := by
  subst hfirst
  refine ⟨h.1, h.2, trivial, ?_, ?_⟩
  all_goals exact fun _ hmem => absurd hmem List.not_mem_nil

/-- A rule that is reduced where it ends. -/
theorem good_fill {frame : Frame α ρ υ β π} (hframe : frame.Ends)
    (hreduce : ∀ o ts', R.op ts = some (o, ts') →
      Stack.resolve resolve o (frame :: stack) = .reduce)
    (h : (State.got (frame :: stack) e ts).Good R S resolve input) :
    (State.got stack (frame.fill e) ts).Good R S resolve input := by
  obtain ⟨htext, hstack, he, hrules, hops⟩ := h
  rw [Stack.text, List.append_assoc] at htext
  cases frame with
  | bracket p => exact hframe.elim
  | unary u =>
      refine ⟨?_, hstack, ⟨he, hops⟩, ?_, ?_⟩
      · rw [← htext, Frame.fill, Term.text, List.append_assoc]
        rfl
      · intro r hr
        rcases List.mem_append.mp hr with hr | hr
        · exact hrules r hr
        · rw [List.mem_singleton.mp hr]
          exact hreduce
      · exact fun _ hmem => absurd hmem List.not_mem_nil
  | binary left b =>
      obtain ⟨hstack, hleft, hreduced, hshift⟩ := hstack
      refine ⟨?_, hstack, ⟨hleft, he, hreduced, hops⟩, ?_, hshift⟩
      · rw [← htext, Frame.fill, Term.text, Frame.text]
        simp only [List.append_assoc]
      · intro r hr
        rcases List.mem_append.mp hr with hr | hr
        · exact hrules r hr
        · rw [List.mem_singleton.mp hr]
          exact hreduce

theorem good_finish (hR : R.Sound S) (hop : R.op ts = none)
    (h : (State.got stack e ts).Good R S resolve input) :
    (finish R.close e ts stack).Good R S resolve input := by
  have hnone : ∀ stack' o ts', R.op ts = some (o, ts') →
      Stack.resolve resolve o (stack' : Stack α ρ υ β π) = .reduce := by
    intro _ o ts' hsome
    rw [hop] at hsome
    cases hsome
  cases stack with
  | nil => exact ⟨h.1, h.2.2.1, hop⟩
  | cons frame stack =>
      cases frame with
      | bracket p =>
          rw [finish]
          split
          · trivial
          · next ts' hclose =>
              obtain ⟨htext, hstack, he, -, -⟩ := h
              refine ⟨?_, hstack, he, ?_, ?_⟩
              · rw [← htext, Stack.text, Frame.text, Term.text,
                  hR.close hclose]
                simp only [List.append_assoc]
              all_goals exact fun _ hmem => absurd hmem List.not_mem_nil
      | unary u => exact good_fill trivial (hnone _) h
      | binary left b =>
          exact good_fill trivial (hnone _) h

theorem good_shift (hop : ts = S.op o ++ rest) (hsome : R.op ts = some (o, rest))
    (hshift : stack.resolve resolve o = .shift)
    (h : (State.got stack e ts).Good R S resolve input) :
    (shift stack e rest o).Good R S resolve input := by
  obtain ⟨htext, hstack, he, hrules, hops⟩ := h
  rw [hop] at htext
  have hreduced : ∀ r ∈ e.rules, resolve r o = .reduce :=
    fun r hr => hrules r hr o rest hsome
  have hshifts : ∀ o' ∈ e.ops ++ [o], stack.resolve resolve o' = .shift := by
    intro o' ho
    rcases List.mem_append.mp ho with ho | ho
    · exact hops o' ho
    · rw [List.mem_singleton.mp ho, hshift]
  cases o with
  | binary b =>
      refine ⟨?_, hstack, he, hreduced, hshifts⟩
      rw [← htext, Stack.text, Frame.text]
      simp only [List.append_assoc]
      rfl
  | trailing q =>
      refine ⟨?_, hstack, ⟨he, hreduced⟩, ?_, hshifts⟩
      · rw [← htext, Term.text]
        simp only [List.append_assoc]
        rfl
      · exact fun _ hmem => absurd hmem List.not_mem_nil

theorem good_step (hR : R.Sound S) {s : State τ α ρ υ β π}
    (h : s.Good R S resolve input) :
    (step R resolve s).Good R S resolve input := by
  cases s with
  | need stack ts =>
      rw [step]
      split
      · trivial
      · next a ts' hfirst => exact good_atom (hR.first hfirst) h
      · next p ts' hfirst =>
          refine ⟨?_, h.2⟩
          rw [← h.1, hR.first hfirst, Stack.text, List.append_assoc]
          rfl
      · next u ts' hfirst =>
          refine ⟨?_, h.2⟩
          rw [← h.1, hR.first hfirst, Stack.text, List.append_assoc]
          rfl
  | got stack e ts =>
      rw [step]
      split
      · next hop => exact good_finish hR hop h
      · next o ts' hop =>
          split
          · next hreduce =>
              have hall : ∀ o' ts'', R.op ts = some (o', ts'') →
                  Stack.resolve resolve o' stack = .reduce := by
                intro o' ts'' hsome
                rw [hop] at hsome
                cases hsome
                exact hreduce
              cases stack with
              | nil => trivial
              | cons frame stack =>
                  refine good_fill ?_ hall h
                  cases frame with
                  | bracket p => cases hreduce
                  | unary u => trivial
                  | binary left b => trivial
          · next hshift => exact good_shift (hR.op hop) hop hshift h
          · trivial
  | done e ts => exact h
  | failed => trivial

/-- What is read has the text, is resolved, and is followed by no operator. -/
theorem parse_sound (hR : R.Sound S)
    (h : parse R resolve input = some (e, rest)) :
    e.text S ++ rest = input ∧ e.Resolved resolve ∧ R.op rest = none :=
  parse_keeps (P := State.Good R S resolve input) ⟨rfl, trivial⟩
    (fun _ => good_step hR) h

/-! ## Its atoms -/

/-- A property of all atoms that have been read. -/
def Frame.Each (P : α → Prop) : Frame α ρ υ β π → Prop
  | bracket _ => True
  | unary _ => True
  | binary left _ => left.Each P

def State.Each (P : α → Prop) : State τ α ρ υ β π → Prop
  | need stack _ => ∀ frame ∈ stack, frame.Each P
  | got stack e _ => (∀ frame ∈ stack, frame.Each P) ∧ e.Each P
  | done e _ => e.Each P
  | failed => True

theorem each_fill {P : α → Prop} {frame : Frame α ρ υ β π}
    (hframe : frame.Each P) (he : e.Each P) : (frame.fill e).Each P := by
  cases frame with
  | bracket p => exact he
  | unary u => exact he
  | binary left b => exact ⟨hframe, he⟩

theorem each_finish {P : α → Prop} {close : List τ → Option (List τ)}
    (h : (State.got stack e ts).Each P) : (finish close e ts stack).Each P := by
  cases stack with
  | nil => exact h.2
  | cons frame stack =>
      obtain ⟨hframe, hstack⟩ := List.forall_mem_cons.mp h.1
      have hfill := each_fill hframe h.2
      cases frame with
      | bracket p =>
          rw [finish]
          split
          · trivial
          · exact ⟨hstack, hfill⟩
      | unary u => exact ⟨hstack, hfill⟩
      | binary left b => exact ⟨hstack, hfill⟩

theorem each_step {P : α → Prop}
    (hP : ∀ a ts rest, R.first ts = some (.atom a, rest) → P a)
    {s : State τ α ρ υ β π} (h : s.Each P) : (step R resolve s).Each P := by
  cases s with
  | need stack ts =>
      rw [step]
      split
      · trivial
      · next hfirst => exact ⟨h, hP _ _ _ hfirst⟩
      · exact List.forall_mem_cons.mpr ⟨trivial, h⟩
      · exact List.forall_mem_cons.mpr ⟨trivial, h⟩
  | got stack e ts =>
      rw [step]
      split
      · exact each_finish h
      · next o ts' _ =>
          split
          · cases stack with
            | nil => trivial
            | cons frame stack =>
                obtain ⟨hframe, hstack⟩ := List.forall_mem_cons.mp h.1
                exact ⟨hstack, each_fill hframe h.2⟩
          · cases o with
            | binary b => exact List.forall_mem_cons.mpr ⟨h.2, h.1⟩
            | trailing q => exact h
          · trivial
  | done e ts => exact h
  | failed => trivial

/-- What holds of every atom that the reader gives holds of those that are
read. -/
theorem parse_each {P : α → Prop}
    (hP : ∀ a ts rest, R.first ts = some (.atom a, rest) → P a)
    (h : parse R resolve ts = some (e, rest)) : e.Each P :=
  parse_keeps (P := State.Each P) (List.forall_mem_nil _)
    (fun _ => each_step hP) h

/-! ## What is resolved is read -/

namespace Term

/-- The open rules, as they wait on the stack. -/
def frames : Term α ρ υ β π → Stack α ρ υ β π
  | atom _ => []
  | bracket _ _ => []
  | unary u e => e.frames ++ [.unary u]
  | binary left b right => right.frames ++ [.binary left b]
  | trailing _ _ => []

/-- What the machine holds of a term when it has read the last of it. -/
def tip : Term α ρ υ β π → Term α ρ υ β π
  | unary _ e => e.tip
  | binary _ _ right => right.tip
  | e => e

end Term

theorem step_fill {frame : Frame α ρ υ β π}
    (hframe : frame.Ends)
    (h : ∀ o ts', R.op ts = some (o, ts') →
      Stack.resolve resolve o (frame :: stack) = .reduce) :
    step R resolve (.got (frame :: stack) e ts) =
      .got stack (frame.fill e) ts := by
  rw [step]
  cases hop : R.op ts with
  | none =>
      cases frame with
      | bracket p => exact hframe.elim
      | unary u => rfl
      | binary left b => rfl
  | some found =>
      obtain ⟨o, ts'⟩ := found
      dsimp only
      rw [h o ts' hop]
      rfl

/-- The open rules of a term are reduced, one after the other. -/
theorem gets_fill (h : ∀ r ∈ t.rules, Reduces R resolve ts r) :
    Attains (step R resolve) (fun _ => False)
      (.got (t.frames ++ stack) t.tip ts) (· = .got stack t ts) := by
  induction t generalizing stack with
  | atom a => exact .here rfl
  | bracket p e ih => exact .here rfl
  | trailing e q ih => exact .here rfl
  | unary u e ih =>
      rw [Term.frames, Term.tip, List.append_assoc]
      refine (ih fun r hr => h r (List.mem_append_left _ hr)).trans ?_
      rintro _ rfl
      refine .of_step (.here ?_)
      exact step_fill trivial
        (h (.unary u) (List.mem_append_right _ List.mem_cons_self))
  | binary left b right _ ih =>
      rw [Term.frames, Term.tip, List.append_assoc]
      refine (ih fun r hr => h r (List.mem_append_left _ hr)).trans ?_
      rintro _ rfl
      refine .of_step (.here ?_)
      exact step_fill trivial
        (h (.binary b) (List.mem_append_right _ List.mem_cons_self))

theorem reduces_op (hR : R.Complete S resolve Ends good)
    (h : ∀ r ∈ t.rules, resolve r o = .reduce) :
    ∀ r ∈ t.rules, Reduces R resolve (S.op o ++ rest) r := by
  intro r hr o' ts' hsome
  rw [hR.op] at hsome
  cases hsome
  exact h r hr

theorem reduces_none (hop : R.op ts = none) (r : Rule υ β) :
    Reduces R resolve ts r := by
  intro o ts' hsome
  rw [hop] at hsome
  cases hsome

/-- An operator is shifted onto the term before it. -/
theorem gets_shift (hR : R.Complete S resolve Ends good)
    (hrules : ∀ r ∈ t.rules, resolve r o = .reduce)
    (hshift : stack.resolve resolve o = .shift) :
    Attains (step R resolve) (fun _ => False)
      (.got (t.frames ++ stack) t.tip (S.op o ++ rest))
      (· = shift stack t rest o) := by
  refine (gets_fill (reduces_op hR hrules)).trans ?_
  rintro _ rfl
  refine .of_step (.here ?_)
  rw [step, hR.op]
  dsimp only
  rw [hshift]

/-- The induction is on the term; what it needs of the stack is that all
operators it begins with are shifted. -/
theorem gets_tip (hR : R.Complete S resolve Ends good)
    (ht : t.Resolved resolve) (hgood : t.Each good) (hends : Ends rest)
    (hops : ∀ o ∈ t.ops, stack.resolve resolve o = .shift) :
    Attains (step R resolve) (fun _ => False) (.need stack (t.text S ++ rest))
      (· = .got (t.frames ++ stack) t.tip rest) := by
  induction t generalizing stack rest with
  | atom a =>
      refine .of_step (.here ?_)
      rw [step, Term.text, hR.atom hgood hends]
      rfl
  | bracket p e ih =>
      rw [Term.text, List.append_assoc, List.append_assoc]
      have hinner : Attains (step R resolve) (fun _ => False)
          (.need (.bracket p :: stack) (e.text S ++ (S.close ++ rest)))
          (· = .got (e.frames ++ .bracket p :: stack) e.tip (S.close ++ rest)) :=
        ih ht hgood hR.ends_close fun _ _ => rfl
      have hfill : Attains (step R resolve) (fun _ => False)
          (.got (e.frames ++ .bracket p :: stack) e.tip (S.close ++ rest))
          (· = .got (.bracket p :: stack) e (S.close ++ rest)) :=
        gets_fill fun r _ => reduces_none hR.op_close r
      refine .of_step ?_
      rw [step, hR.bracket (e := e) ht hgood]
      refine hinner.trans ?_
      rintro _ rfl
      refine hfill.trans ?_
      rintro _ rfl
      refine .of_step (.here ?_)
      rw [step, hR.op_close]
      dsimp only
      rw [finish, hR.close]
      rfl
  | unary u e ih =>
      rw [Term.text, List.append_assoc, Term.frames, Term.tip,
        List.append_assoc]
      refine .of_step ?_
      rw [step, hR.unary (e := e) ht.1 hgood]
      exact ih ht.1 hgood hends ht.2
  | binary left b right ihl ihr =>
      obtain ⟨hleft, hright, hrules, hshift⟩ := ht
      rw [Term.text, List.append_assoc, List.append_assoc, Term.frames,
        Term.tip, List.append_assoc]
      refine (ihl hleft hgood.1 (hR.ends_op (o := .binary b)) fun o ho =>
        hops o (List.mem_append_left _ ho)).trans ?_
      rintro _ rfl
      refine (gets_shift hR hrules (hops _
        (List.mem_append_right _ List.mem_cons_self))).trans ?_
      rintro _ rfl
      exact ihr hright hgood.2 hends hshift
  | trailing e q ih =>
      rw [Term.text, List.append_assoc]
      refine (ih ht.1 hgood (hR.ends_op (o := .trailing q)) fun o ho =>
        hops o (List.mem_append_left _ ho)).trans ?_
      rintro _ rfl
      refine (gets_shift (o := .trailing q) hR ht.2 (hops _
        (List.mem_append_right _ List.mem_cons_self))).trans ?_
      rintro _ rfl
      exact .here rfl

/-- A resolved term is read from its text. -/
theorem parse_complete (hconsumes : R.Consumes)
    (hR : R.Complete S resolve Ends good) (ht : t.Resolved resolve)
    (hgood : t.Each good) (hends : Ends rest) (hop : R.op rest = none) :
    parse R resolve (t.text S ++ rest) = some (t, rest) := by
  refine parse_of_gets hconsumes ?_
  have htip : Attains (step R resolve) (fun _ => False)
      (.need [] (t.text S ++ rest)) (· = .got (t.frames ++ []) t.tip rest) :=
    gets_tip hR ht hgood hends fun _ _ => rfl
  refine htip.trans ?_
  rintro _ rfl
  refine (gets_fill fun r _ => reduces_none hop r).trans ?_
  rintro _ rfl
  refine .of_step (.here ?_)
  rw [step, hop]
  rfl

end Infinisql.Lib.Precedence
