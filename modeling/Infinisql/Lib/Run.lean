import Mathlib.Data.List.Basic

/-!
# Runs of a partial step function

A component here is a state and a step function that may be undefined: the
C++ it embeds dereferences pointers without asking, and a step that would
dereference null has no successor state. Nothing in this file knows which
component that is.

`run` threads a list of actions. Four judgments are read off it.
`AllStates P` says every state the run reaches satisfies `P`, the first and
the last included; `AllSteps Ok` says every step the run really takes
satisfies `Ok` in the state it was taken from; `AllCalls Ok` asks it of the
step the run gets stuck on as well, and `AllDefined P` says that there is no
such step. The rules below turn one-step facts into these: an invariant kept
by each step holds in all states, and when a step keeps the property exactly
if it satisfies `Ok`, the whole run keeps the property exactly if all its
steps satisfy `Ok`.
-/

namespace Infinisql.Lib

variable {S A : Type*}

/-- The state after the actions, if every step of the way is defined. -/
def run (step : S → A → Option S) : S → List A → Option S
  | s, [] => some s
  | s, a :: as => (step s a).bind fun s' => run step s' as

/-- Every state reached, from the start to the end of the run. -/
def AllStates (step : S → A → Option S) (P : S → Prop) : S → List A → Prop
  | s, [] => P s
  | s, a :: as => P s ∧ ∀ s', step s a = some s' → AllStates step P s' as

/-- Every call made, judged in the state it is made in, whether or not it
returns. -/
def AllCalls (step : S → A → Option S) (Ok : S → A → Prop) : S → List A → Prop
  | _, [] => True
  | s, a :: as => Ok s a ∧ ∀ s', step s a = some s' → AllCalls step Ok s' as

/-- Every step is defined, and every state reached satisfies the property. -/
def AllDefined (step : S → A → Option S) (P : S → Prop) : S → List A → Prop
  | s, [] => P s
  | s, a :: as => P s ∧ ∃ s', step s a = some s' ∧ AllDefined step P s' as

/-- Every step taken, judged in the state it starts from. -/
def AllSteps (step : S → A → Option S) (Ok : S → A → Prop) : S → List A → Prop
  | _, [] => True
  | s, a :: as => ∀ s', step s a = some s' → Ok s a ∧ AllSteps step Ok s' as

variable {step : S → A → Option S} {P J : S → Prop} {Ok : S → A → Prop}
  {Q : A → Prop}

@[simp] theorem run_nil (s : S) : run step s [] = some s := rfl

theorem run_cons {s s' : S} {a : A} {as : List A} :
    run step s (a :: as) = some s' ↔
      ∃ s₁, step s a = some s₁ ∧ run step s₁ as = some s' := by
  rw [run, Option.bind_eq_some_iff]

theorem run_append {as bs : List A} : ∀ {s s' : S},
    run step s (as ++ bs) = some s' ↔
      ∃ s₁, run step s as = some s₁ ∧ run step s₁ bs = some s' := by
  induction as with
  | nil => intro s s'; simp
  | cons a as ih =>
      intro s s'
      rw [List.cons_append, run_cons]
      constructor
      · rintro ⟨s₁, h1, h2⟩
        obtain ⟨s₂, h3, h4⟩ := ih.mp h2
        exact ⟨s₂, run_cons.mpr ⟨s₁, h1, h3⟩, h4⟩
      · rintro ⟨s₂, h1, h2⟩
        obtain ⟨s₁, h3, h4⟩ := run_cons.mp h1
        exact ⟨s₁, h3, ih.mpr ⟨s₂, h4, h2⟩⟩

/-- The same as an equation, for one action at the end. -/
theorem run_concat (as : List A) (a : A) : ∀ s : S,
    run step s (as ++ [a]) = (run step s as).bind (step · a) := by
  induction as with
  | nil =>
      intro s
      simp only [List.nil_append, run, Option.bind_some]
      cases step s a <;> rfl
  | cons b as ih =>
      intro s
      rw [List.cons_append, run, run]
      cases step s b with
      | none => rfl
      | some s₁ => exact ih s₁

/-- A step that is known: the form in which a concrete run is judged. -/
theorem AllSteps.cons {s s' : S} {a : A} {as : List A}
    (hs : step s a = some s') (hok : Ok s a) (h : AllSteps step Ok s' as) :
    AllSteps step Ok s (a :: as) := by
  intro s₁ h₁
  rw [hs] at h₁
  injection h₁ with h₁
  exact h₁ ▸ ⟨hok, h⟩

/-- A fact each step keeps holds at the end of a run, for actions of a kind. -/
theorem run_induct {as : List A} (hstep : ∀ s a s', Q a → P s →
      step s a = some s' → P s') : ∀ {s s' : S}, (∀ a ∈ as, Q a) → P s →
      run step s as = some s' → P s' := by
  induction as with
  | nil =>
      intro s s' _ hp h
      injection h with h
      exact h ▸ hp
  | cons a as ih =>
      intro s s' hq hp h
      obtain ⟨s₁, h1, h2⟩ := run_cons.mp h
      exact ih (fun b hb => hq b (List.mem_cons_of_mem a hb))
        (hstep s a s₁ (hq a List.mem_cons_self) hp h1) h2

/-- Where each action of a kind is defined and keeps a fact, a run is. -/
theorem run_defined {as : List A} (hstep : ∀ s a, Q a → P s →
      ∃ s', step s a = some s' ∧ P s') : ∀ {s : S}, (∀ a ∈ as, Q a) → P s →
      ∃ s', run step s as = some s' ∧ P s' := by
  induction as with
  | nil => exact fun _ hp => ⟨_, rfl, hp⟩
  | cons a as ih =>
      intro s hq hp
      obtain ⟨s₁, h1, hp₁⟩ := hstep s a (hq a List.mem_cons_self) hp
      obtain ⟨s', h2, hp'⟩ :=
        ih (fun b hb => hq b (List.mem_cons_of_mem a hb)) hp₁
      exact ⟨s', run_cons.mpr ⟨s₁, h1, h2⟩, hp'⟩

theorem AllStates.first {as : List A} {s : S} (h : AllStates step P s as) :
    P s := by
  cases as with
  | nil => exact h
  | cons a as => exact h.1

/-- `AllStates` in terms of `run`: the property holds after every prefix. -/
theorem allStates_iff_run {as : List A} : ∀ {s : S},
    AllStates step P s as ↔
      ∀ bs, bs <+: as → ∀ s', run step s bs = some s' → P s' := by
  induction as with
  | nil =>
      intro s
      constructor
      · intro h bs hbs s' hr
        rw [List.prefix_nil.mp hbs] at hr
        injection hr with hr
        exact hr ▸ h
      · intro h
        exact h [] List.nil_prefix s rfl
  | cons a as ih =>
      intro s
      constructor
      · rintro ⟨hp, hrest⟩ bs hbs s' hr
        cases bs with
        | nil =>
            injection hr with hr
            exact hr ▸ hp
        | cons b bs =>
            obtain ⟨rfl, hpre⟩ := List.cons_prefix_cons.mp hbs
            obtain ⟨s₁, h1, h2⟩ := run_cons.mp hr
            exact ih.mp (hrest s₁ h1) bs hpre s' h2
      · intro h
        refine ⟨h [] List.nil_prefix s rfl, fun s₁ h1 => ih.mpr ?_⟩
        intro bs hbs s' hr
        exact h (a :: bs) (List.cons_prefix_cons.mpr ⟨rfl, hbs⟩) s'
          (run_cons.mpr ⟨s₁, h1, hr⟩)

/-- The invariant rule: what each step keeps holds in all states. -/
theorem allStates_of_step {as : List A} (hstep : ∀ s a s', Q a → P s →
      step s a = some s' → P s') {s : S} (hq : ∀ a ∈ as, Q a) (hp : P s) :
    AllStates step P s as := by
  refine allStates_iff_run.mpr fun bs hbs s' hr => ?_
  exact run_induct hstep (fun a ha => hq a (hbs.subset ha)) hp hr

theorem AllStates.imp {P' : S → Prop} {as : List A} {s : S}
    (h : AllStates step P s as) (himp : ∀ s, P s → P' s) :
    AllStates step P' s as := by
  refine allStates_iff_run.mpr fun bs hbs s' hr => ?_
  exact himp s' (allStates_iff_run.mp h bs hbs s' hr)

/-- The exact rule. `J` is the part of the invariant that no step can break;
a step keeps the rest, `P`, exactly when it satisfies `Ok`. Then the run
keeps `P` exactly when all its steps satisfy `Ok`. -/
theorem allStates_iff_allSteps {as : List A}
    (hkeep : ∀ s a s', Q a → J s → step s a = some s' → J s')
    (hstep : ∀ s a s', Q a → J s → P s → step s a = some s' → (P s' ↔ Ok s a)) :
    ∀ {s : S}, (∀ a ∈ as, Q a) → J s → P s →
      (AllStates step P s as ↔ AllSteps step Ok s as) := by
  induction as with
  | nil => intro s _ _ hp; exact ⟨fun _ => trivial, fun _ => hp⟩
  | cons a as ih =>
      intro s hq hj hp
      have ha : Q a := hq a List.mem_cons_self
      have has : ∀ b ∈ as, Q b := fun b hb => hq b (List.mem_cons_of_mem a hb)
      constructor
      · rintro ⟨_, hrest⟩ s' hs'
        have hp' := (hrest s' hs').first
        refine ⟨(hstep s a s' ha hj hp hs').mp hp', ?_⟩
        exact (ih has (hkeep s a s' ha hj hs') hp').mp (hrest s' hs')
      · intro h
        refine ⟨hp, fun s' hs' => ?_⟩
        obtain ⟨hok, hrest⟩ := h s' hs'
        have hp' : P s' := (hstep s a s' ha hj hp hs').mpr hok
        exact (ih has (hkeep s a s' ha hj hs') hp').mpr hrest

/-- What holds of an action in every state holds of all steps. -/
theorem allSteps_of_forall {as : List A} : ∀ {s : S},
    (∀ s, ∀ a ∈ as, Ok s a) → AllSteps step Ok s as := by
  induction as with
  | nil => exact fun _ => trivial
  | cons a as ih =>
      intro s h s' _
      refine ⟨h s a List.mem_cons_self, ih fun s b hb => ?_⟩
      exact h s b (List.mem_cons_of_mem a hb)

theorem AllSteps.and {Ok' : S → A → Prop} {as : List A} : ∀ {s : S},
    AllSteps step Ok s as → AllSteps step Ok' s as →
    AllSteps step (fun s a => Ok s a ∧ Ok' s a) s as := by
  induction as with
  | nil => exact fun _ _ => trivial
  | cons a as ih =>
      intro s h h' s₁ hs
      obtain ⟨h1, h2⟩ := h s₁ hs
      obtain ⟨h3, h4⟩ := h' s₁ hs
      exact ⟨⟨h1, h3⟩, ih h2 h4⟩

/-- The run rule under a judgment of the steps. -/
theorem AllSteps.run_induct {as : List A} (hstep : ∀ s a s', Ok s a → P s →
      step s a = some s' → P s') : ∀ {s s' : S}, AllSteps step Ok s as → P s →
      run step s as = some s' → P s' := by
  induction as with
  | nil =>
      intro s s' _ hp h
      injection h with h
      exact h ▸ hp
  | cons a as ih =>
      intro s s' hok hp h
      obtain ⟨s₁, h1, h2⟩ := run_cons.mp h
      obtain ⟨h3, h4⟩ := hok s₁ h1
      exact ih h4 (hstep s a s₁ h3 hp h1) h2

/-- The invariant rule under a judgment of the steps. -/
theorem AllSteps.allStates {as : List A} (hstep : ∀ s a s', Ok s a → P s →
      step s a = some s' → P s') : ∀ {s : S}, AllSteps step Ok s as → P s →
      AllStates step P s as := by
  induction as with
  | nil => exact fun _ hp => hp
  | cons a as ih =>
      intro s hok hp
      refine ⟨hp, fun s₁ h1 => ?_⟩
      obtain ⟨h2, h3⟩ := hok s₁ h1
      exact ih h3 (hstep s a s₁ h2 hp h1)

/-- The step taken where a run has come to. -/
theorem AllSteps.at_end {as : List A} {a : A} : ∀ {s s' s'' : S},
    AllSteps step Ok s (as ++ [a]) → run step s as = some s' →
    step s' a = some s'' → Ok s' a := by
  induction as with
  | nil =>
      intro s s' s'' h hrun hs
      injection hrun with hrun
      exact (h s'' (hrun ▸ hs)).1 |> (hrun ▸ ·)
  | cons b as ih =>
      intro s s' s'' h hrun hs
      obtain ⟨s₁, h1, h2⟩ := run_cons.mp hrun
      exact ih (h s₁ h1).2 h2 hs

/-- A judgment that can be computed can be computed of a whole run. -/
instance decidableAllSteps [∀ s a, Decidable (Ok s a)] :
    ∀ (s : S) (as : List A), Decidable (AllSteps step Ok s as)
  | _, [] => isTrue trivial
  | s, a :: as =>
      match h : step s a with
      | none => isTrue fun s' hs' => by rw [h] at hs'; cases hs'
      | some s' =>
          have := decidableAllSteps s' as
          decidable_of_iff (Ok s a ∧ AllSteps step Ok s' as)
            ⟨fun hok => AllSteps.cons h hok.1 hok.2, fun hok => hok s' h⟩

/-- Judging the same run twice: where an invariant turns one judgment of a
step into another, all steps pass the other. -/
theorem AllSteps.imp_of_inv {Ok' : S → A → Prop} {as : List A}
    (hkeep : ∀ s a s', Q a → J s → step s a = some s' → Ok s a → J s')
    (hok : ∀ s a s', Q a → J s → step s a = some s' → Ok s a → Ok' s a) :
    ∀ {s : S}, (∀ a ∈ as, Q a) → J s → AllSteps step Ok s as →
      AllSteps step Ok' s as := by
  induction as with
  | nil => exact fun _ _ _ => trivial
  | cons a as ih =>
      intro s hq hj h s' hs'
      obtain ⟨h1, h2⟩ := h s' hs'
      have ha : Q a := hq a List.mem_cons_self
      refine ⟨hok s a s' ha hj hs' h1, ?_⟩
      exact ih (fun b hb => hq b (List.mem_cons_of_mem a hb))
        (hkeep s a s' ha hj hs' h1) h2

/-- A call that is known to return: the form in which a concrete run is
judged. -/
theorem AllCalls.cons {s s' : S} {a : A} {as : List A}
    (hs : step s a = some s') (hok : Ok s a) (h : AllCalls step Ok s' as) :
    AllCalls step Ok s (a :: as) := by
  refine ⟨hok, fun s₁ h₁ => ?_⟩
  rw [hs] at h₁
  injection h₁ with h₁
  exact h₁ ▸ h

/-- Where an invariant turns one judgment of a call into another, all calls
pass the other. -/
theorem AllCalls.imp_of_inv {Ok' : S → A → Prop} {as : List A}
    (hkeep : ∀ s a s', J s → Ok s a → step s a = some s' → J s')
    (hok : ∀ s a, J s → Ok s a → Ok' s a) :
    ∀ {s : S}, J s → AllCalls step Ok s as → AllCalls step Ok' s as := by
  induction as with
  | nil => exact fun _ _ => trivial
  | cons a as ih =>
      intro s hj h
      refine ⟨hok s a hj h.1, fun s' hs' => ?_⟩
      exact ih (hkeep s a s' hj h.1 hs') (h.2 s' hs')

/-- The call made where a run has come to. -/
theorem AllCalls.at_end {as : List A} {a : A} : ∀ {s s' : S},
    AllCalls step Ok s (as ++ [a]) → run step s as = some s' → Ok s' a := by
  induction as with
  | nil =>
      intro s s' h hrun
      injection hrun with hrun
      exact hrun ▸ h.1
  | cons b as ih =>
      intro s s' h hrun
      obtain ⟨s₁, h1, h2⟩ := run_cons.mp hrun
      exact ih (h.2 s₁ h1) h2

/-- One more call, at the end. -/
theorem AllCalls.concat {as : List A} {a : A} : ∀ {s : S},
    AllCalls step Ok s as → (∀ s', run step s as = some s' → Ok s' a) →
    AllCalls step Ok s (as ++ [a]) := by
  induction as with
  | nil => exact fun _ hok => ⟨hok _ rfl, fun _ _ => trivial⟩
  | cons b as ih =>
      intro s h hok
      refine ⟨h.1, fun s₁ h1 => ih (h.2 s₁ h1) fun s' hrun => ?_⟩
      exact hok s' (run_cons.mpr ⟨s₁, h1, hrun⟩)

instance decidableAllCalls [∀ s a, Decidable (Ok s a)] :
    ∀ (s : S) (as : List A), Decidable (AllCalls step Ok s as)
  | _, [] => isTrue trivial
  | s, a :: as =>
      match h : step s a with
      | none => decidable_of_iff (Ok s a)
          ⟨fun hok => ⟨hok, fun s' hs' => by rw [h] at hs'; cases hs'⟩,
            And.left⟩
      | some s' =>
          have := decidableAllCalls s' as
          decidable_of_iff (Ok s a ∧ AllCalls step Ok s' as)
            ⟨fun hok => AllCalls.cons h hok.1 hok.2,
              fun hok => ⟨hok.1, hok.2 s' h⟩⟩

/-- The exact rule where an action must be possible in the state it comes in.
The invariant `J` outlives a step if the property does. -/
theorem AllCalls.allStates_iff {Can : S → A → Prop} {as : List A}
    (hstep : ∀ s a s', Can s a → J s → step s a = some s' → (P s' ↔ Ok s a))
    (hkeep : ∀ s a s', Can s a → J s → step s a = some s' → P s' → J s') :
    ∀ {s : S}, AllCalls step Can s as → J s → P s →
      (AllStates step P s as ↔ AllSteps step Ok s as) := by
  induction as with
  | nil => exact fun _ _ hp => ⟨fun _ => trivial, fun _ => hp⟩
  | cons a as ih =>
      intro s hcan hj hp
      constructor
      · intro h s' hs'
        have hp' := (h.2 s' hs').first
        have hj' := hkeep s a s' hcan.1 hj hs' hp'
        exact ⟨(hstep s a s' hcan.1 hj hs').mp hp',
          (ih (hcan.2 s' hs') hj' hp').mp (h.2 s' hs')⟩
      · intro h
        refine ⟨hp, fun s' hs' => ?_⟩
        have hp' := (hstep s a s' hcan.1 hj hs').mpr (h s' hs').1
        have hj' := hkeep s a s' hcan.1 hj hs' hp'
        exact (ih (hcan.2 s' hs') hj' hp').mpr (h s' hs').2

/-- While the property holds, the calls that are possible are judged under the
invariant. -/
theorem AllCalls.of_allStates {Can : S → A → Prop} {as : List A}
    (hcall : ∀ s a, Can s a → J s → Ok s a)
    (hkeep : ∀ s a s', Can s a → J s → step s a = some s' → P s' → J s') :
    ∀ {s : S}, AllCalls step Can s as → J s → AllStates step P s as →
      AllCalls step Ok s as := by
  induction as with
  | nil => exact fun _ _ _ => trivial
  | cons a as ih =>
      intro s hcan hj h
      refine ⟨hcall s a hcan.1 hj, fun s' hs' => ?_⟩
      have hp' := (h.2 s' hs').first
      exact ih (hcan.2 s' hs') (hkeep s a s' hcan.1 hj hs' hp') (h.2 s' hs')

/-- A condition that asks for nothing. -/
theorem allCalls_true {as : List A} : ∀ {s : S},
    AllCalls step (fun _ _ => True) s as := by
  induction as with
  | nil => exact trivial
  | cons a as ih => exact ⟨trivial, fun _ _ => ih⟩

/-- Where each call that passes is defined and keeps a fact, a run is. -/
theorem AllCalls.run_defined {as : List A} (hstep : ∀ s a, Ok s a → P s →
      ∃ s', step s a = some s' ∧ P s') :
      ∀ {s : S}, AllCalls step Ok s as → P s →
      ∃ s', run step s as = some s' ∧ P s' := by
  induction as with
  | nil => exact fun _ hp => ⟨_, rfl, hp⟩
  | cons a as ih =>
      intro s hok hp
      obtain ⟨s₁, h1, hp₁⟩ := hstep s a hok.1 hp
      obtain ⟨s', h2, hp'⟩ := ih (hok.2 s₁ h1) hp₁
      exact ⟨s', run_cons.mpr ⟨s₁, h1, h2⟩, hp'⟩

/-- And it keeps the fact all along. -/
theorem AllCalls.allDefined {as : List A} (hstep : ∀ s a, Ok s a → P s →
      ∃ s', step s a = some s' ∧ P s') :
      ∀ {s : S}, AllCalls step Ok s as → P s → AllDefined step P s as := by
  induction as with
  | nil => exact fun _ hp => hp
  | cons a as ih =>
      intro s hok hp
      obtain ⟨s', h1, hp'⟩ := hstep s a hok.1 hp
      exact ⟨hp, s', h1, ih (hok.2 s' h1) hp'⟩

theorem AllDefined.imp {P' : S → Prop} {as : List A} : ∀ {s : S},
    AllDefined step P s as → (∀ s, P s → P' s) → AllDefined step P' s as := by
  induction as with
  | nil => exact fun h himp => himp _ h
  | cons a as ih =>
      intro s h himp
      obtain ⟨hp, s', hs', hrest⟩ := h
      exact ⟨himp s hp, s', hs', ih hrest himp⟩

/-- A run whose steps are all defined comes to an end. -/
theorem AllDefined.run_isSome {as : List A} : ∀ {s : S},
    AllDefined step P s as → (run step s as).isSome := by
  induction as with
  | nil => exact fun _ => rfl
  | cons a as ih =>
      intro s h
      obtain ⟨_, s', hs', hrest⟩ := h
      rw [run, hs', Option.bind_some]
      exact ih hrest

/-- The property holds where the run ends. -/
theorem AllDefined.at_end {as : List A} : ∀ {s s' : S},
    AllDefined step P s as → run step s as = some s' → P s' := by
  induction as with
  | nil =>
      intro s s' h hrun
      injection hrun with hrun
      exact hrun ▸ h
  | cons a as ih =>
      intro s s' h hrun
      obtain ⟨_, s₁, hs₁, hrest⟩ := h
      obtain ⟨s₂, hs₂, hrun⟩ := run_cons.mp hrun
      obtain rfl : s₁ = s₂ := Option.some.inj (hs₁.symm.trans hs₂)
      exact ih hrest hrun

/-- Two judgments of a call that agree under an invariant, where the calls
that pass keep the invariant, agree on whole runs. -/
theorem allCalls_iff {Ok' : S → A → Prop} {as : List A}
    (hiff : ∀ s a, Q a → J s → (Ok s a ↔ Ok' s a))
    (hkeep : ∀ s a s', Q a → J s → Ok' s a → step s a = some s' → J s') :
    ∀ {s : S}, (∀ a ∈ as, Q a) → J s →
      (AllCalls step Ok s as ↔ AllCalls step Ok' s as) := by
  induction as with
  | nil => exact fun _ _ => Iff.rfl
  | cons a as ih =>
      intro s hq hj
      have ha : Q a := hq a List.mem_cons_self
      have has : ∀ b ∈ as, Q b := fun b hb => hq b (List.mem_cons_of_mem a hb)
      constructor
      · rintro ⟨hok, hrest⟩
        have hok' := (hiff s a ha hj).mp hok
        refine ⟨hok', fun s' hs' => ?_⟩
        exact (ih has (hkeep s a s' ha hj hok' hs')).mp (hrest s' hs')
      · rintro ⟨hok', hrest⟩
        refine ⟨(hiff s a ha hj).mpr hok', fun s' hs' => ?_⟩
        exact (ih has (hkeep s a s' ha hj hok' hs')).mpr (hrest s' hs')

/-- The exact rule for steps that may be undefined. `J` is what no step can
break, and `En` is what a call may rely on. A call that returns, and keeps
`P`, is one that satisfies `Ok`. -/
theorem allDefined_iff {En : S → A → Prop} {as : List A}
    (hkeep : ∀ s a s', En s a → J s → step s a = some s' → J s')
    (hstep : ∀ s a, En s a → J s → P s →
      ((∃ s', step s a = some s' ∧ P s') ↔ Ok s a)) :
    ∀ {s : S}, J s → P s → AllCalls step En s as →
      (AllDefined step P s as ↔ AllCalls step Ok s as) := by
  induction as with
  | nil => exact fun _ hp _ => ⟨fun _ => trivial, fun _ => hp⟩
  | cons a as ih =>
      intro s hj hp hen
      constructor
      · rintro ⟨_, s', hs', hrest⟩
        have hp' : P s' := by
          cases as with
          | nil => exact hrest
          | cons b bs => exact hrest.1
        refine ⟨(hstep s a hen.1 hj hp).mp ⟨s', hs', hp'⟩, fun s₁ h₁ => ?_⟩
        obtain rfl : s' = s₁ := Option.some.inj (hs'.symm.trans h₁)
        exact (ih (hkeep s a s' hen.1 hj hs') hp' (hen.2 s' hs')).mp hrest
      · rintro ⟨hok, hrest⟩
        obtain ⟨s', hs', hp'⟩ := (hstep s a hen.1 hj hp).mpr hok
        exact ⟨hp, s', hs', (ih (hkeep s a s' hen.1 hj hs') hp'
          (hen.2 s' hs')).mpr (hrest s' hs')⟩

/-! Two step functions that agree through a map of their states. -/

section Map

variable {T : Type*} {step' : T → A → Option T} {f : S → T}

theorem run_map (hstep : ∀ s a, step' (f s) a = (step s a).map f)
    (as : List A) : ∀ s : S, run step' (f s) as = (run step s as).map f := by
  induction as with
  | nil => exact fun s => rfl
  | cons a as ih =>
      intro s
      rw [run, run, hstep]
      cases step s a with
      | none => rfl
      | some s₁ => exact ih s₁

theorem allStates_map {P' : T → Prop} {as : List A}
    (hstep : ∀ s a, step' (f s) a = (step s a).map f) : ∀ {s : S},
    AllStates step' P' (f s) as → AllStates step (P' ∘ f) s as := by
  induction as with
  | nil => exact fun h => h
  | cons a as ih =>
      intro s h
      refine ⟨h.1, fun s' hs' => ih (h.2 (f s') ?_)⟩
      rw [hstep, hs', Option.map_some]

end Map
/-- The exact rule, with a judgment of the step beside the property of the
state it leads to: where a step passes both exactly when it satisfies `Ok`,
so does the run. -/
theorem allStates_and_allSteps_iff {as : List A} {R : S → A → Prop}
    (hstep : ∀ s a s', P s → step s a = some s' → (P s' ∧ R s a ↔ Ok s a)) :
    ∀ {s : S}, P s → (AllStates step P s as ∧ AllSteps step R s as ↔
      AllSteps step Ok s as) := by
  induction as with
  | nil => exact fun hp => ⟨fun _ => trivial, fun _ => ⟨hp, trivial⟩⟩
  | cons a as ih =>
      intro s hp
      constructor
      · rintro ⟨⟨_, hrest⟩, hsteps⟩ s' hs'
        have hp' := (hrest s' hs').first
        obtain ⟨hr, hsteps'⟩ := hsteps s' hs'
        exact ⟨(hstep s a s' hp hs').mp ⟨hp', hr⟩,
          (ih hp').mp ⟨hrest s' hs', hsteps'⟩⟩
      · intro h
        refine ⟨⟨hp, fun s' hs' => ?_⟩, fun s' hs' => ?_⟩
        · obtain ⟨hok, hrest⟩ := h s' hs'
          exact ((ih ((hstep s a s' hp hs').mpr hok).1).mpr hrest).1
        · obtain ⟨hok, hrest⟩ := h s' hs'
          obtain ⟨hp', hr⟩ := (hstep s a s' hp hs').mpr hok
          exact ⟨hr, ((ih hp').mpr hrest).2⟩
theorem AllStates.and {P' : S → Prop} {as : List A} {s : S}
    (h : AllStates step P s as) (h' : AllStates step P' s as) :
    AllStates step (fun s => P s ∧ P' s) s as := by
  refine allStates_iff_run.mpr fun bs hbs s' hr => ?_
  exact ⟨allStates_iff_run.mp h bs hbs s' hr,
    allStates_iff_run.mp h' bs hbs s' hr⟩

/-- The invariant rule in a run whose states all have another property: a step
may use it before and after. -/
theorem AllStates.keep {K : S → Prop} {as : List A}
    (hstep : ∀ s a s', K s' → P s → step s a = some s' → P s') :
    ∀ {s : S}, AllStates step K s as → P s → AllStates step P s as := by
  induction as with
  | nil => exact fun _ hp => hp
  | cons a as ih =>
      rintro s ⟨_, hrest⟩ hp
      refine ⟨hp, fun s' hs' => ?_⟩
      have hk' : K s' := by
        cases as with
        | nil => exact hrest s' hs'
        | cons b bs => exact (hrest s' hs').1
      exact ih (hrest s' hs') (hstep s a s' hk' hp hs')
/-- A property that can be computed can be computed of all states. -/
instance decidableAllStates [∀ s, Decidable (P s)] :
    ∀ (s : S) (as : List A), Decidable (AllStates step P s as)
  | s, [] => inferInstanceAs (Decidable (P s))
  | s, a :: as =>
      match h : step s a with
      | none => decidable_of_iff (P s)
          ⟨fun hp => ⟨hp, fun s' hs' => by rw [h] at hs'; cases hs'⟩,
            And.left⟩
      | some s' =>
          have := decidableAllStates s' as
          decidable_of_iff (P s ∧ AllStates step P s' as)
            ⟨fun hp => ⟨hp.1, fun s₁ h₁ => by
                rw [h] at h₁
                injection h₁ with h₁
                exact h₁ ▸ hp.2⟩,
              fun hp => ⟨hp.1, hp.2 s' h⟩⟩
/-- A judgment of the steps holds of any first part of the run. -/
theorem AllSteps.of_prefix {as : List A} : ∀ {bs : List A} {s : S},
    AllSteps step Ok s as → bs <+: as → AllSteps step Ok s bs := by
  induction as with
  | nil =>
      intro bs s _ hbs
      rw [List.prefix_nil.mp hbs]
      exact trivial
  | cons a as ih =>
      intro bs s h hbs
      cases bs with
      | nil => exact trivial
      | cons b bs =>
          obtain ⟨rfl, hpre⟩ := List.cons_prefix_cons.mp hbs
          intro s' hs'
          obtain ⟨hok, hrest⟩ := h s' hs'
          exact ⟨hok, ih hrest hpre⟩

end Infinisql.Lib
