import Mathlib.Tactic.ByContra
import Infinisql.Proofs.SearchTerms

/-!
# A predicate and the replies to it

What a predicate asks the engines is answered in one round or in two. Each round
is an induction on the number of replies that are still to come; `pending` is
the state meanwhile. The search is resumed at the predicate, `asked_turn`, if
nothing was pending before, the request has been sent at all, and its first
round has brought an index entry. Otherwise nothing resumes it.
-/

namespace Infinisql.Conditions

open Infinisql.Ref (Bytes Field NonLockingIndexEntry integerOf operandFieldid
  operandType)
open Infinisql.Queues (Locktype)
open Infinisql.Asts (Node Operatortype)
open Infinisql.Lib

variable {s : Surroundings} {w w' : State} {op : Operatortype} {this i n : ℕ}
  {left right : Bytes} {hits : List NonLockingIndexEntry} {ep : Entrypoint}

/-- Messages have been sent for the node, and to so many of them no reply has
come. -/
def pending (w : State) (this n : ℕ) (ep : Entrypoint)
    (hits : List NonLockingIndexEntry) : State :=
  { w with
    pendingcmd := true
    sqlcmdstate := ⟨this, n, hits⟩
    tacmdentrypoint := ep
    inflight := n }

/-- The search goes on at the node, and nothing is pending. -/
def Resumed (w : State) (this : ℕ) (c : Config) : Prop :=
  ∃ sqlcmdstate ep, c = .searching { w with
    pendingcmd := false
    sqlcmdstate := sqlcmdstate
    tacmdentrypoint := ep
    inflight := 0 } this none .statement

/-! ## Rows -/

theorem step_rows : step s (.waiting (pending w this (n + 1) .two hits) i) =
    if (s.returnRows this i).any isPending then .aborted
    else if n = 0 ∧ s.lockpendingcount = 0 then
      .searching { pending w this n .two hits with pendingcmd := false } this
        none .statement
    else .waiting (pending w this n .two hits) (i + 1) := by
  rfl

theorem strays_waiting :
    Strays (step s) Busy (.waiting (pending w this 0 ep hits) i) :=
  Strays.of_step (strays_stopped .stalled)

/-- By induction on the replies that are to come. -/
theorem rows_resumed (hlock : s.lockpendingcount = 0) (n : ℕ) : ∀ i,
    Attains (step s) (Off s) (.waiting (pending w this (n + 1) .two hits) i)
      (Resumed w this) := by
  induction n with
  | zero =>
      intro i
      refine .of_step ?_
      rw [step_rows]
      split
      · next hpending =>
          refine .calledOff ⟨rfl, fun hcalm => ?_⟩
          rw [hcalm] at hpending
          cases hpending
      · rw [if_pos ⟨rfl, hlock⟩]
        exact .here ⟨_, _, rfl⟩
  | succ n ih =>
      intro i
      refine .of_step ?_
      rw [step_rows]
      split
      · next hpending =>
          refine .calledOff ⟨rfl, fun hcalm => ?_⟩
          rw [hcalm] at hpending
          cases hpending
      · rw [if_neg fun h => absurd h.1 (Nat.succ_ne_zero n)]
        exact ih (i + 1)

/-- A lock that is waited for keeps the search from being resumed. -/
theorem rows_stray (hlock : s.lockpendingcount ≠ 0) (hcalm : Calm s) (n : ℕ) :
    ∀ i, Strays (step s) Busy
      (.waiting (pending w this (n + 1) .two hits) i) := by
  induction n with
  | zero =>
      intro i
      refine .of_step ?_
      rw [step_rows, if_neg (by rw [hcalm]; simp), if_neg fun h => hlock h.2]
      exact strays_waiting
  | succ n ih =>
      intro i
      refine .of_step ?_
      rw [step_rows, if_neg (by rw [hcalm]; simp), if_neg fun h => hlock h.2]
      exact ih (i + 1)

/-! ## Index entries -/

theorem step_hits : step s (.waiting (pending w this (n + 1) .one hits) i) =
    if n = 0 then
      match hits ++ s.indexHits this i with
      | [] => .stopped .misled
      | [h] => .waiting (pending w this 1 .two [h]) 0
      | h₁ :: h₂ :: hs => .waiting (pending w this
          (payloads (h₁ :: h₂ :: hs)).length .two (h₁ :: h₂ :: hs)) 0
    else .waiting (pending w this n .one (hits ++ s.indexHits this i))
      (i + 1) := by
  change takeHits (s.indexHits this i) i (pending w this (n + 1) .one hits) = _
  unfold takeHits
  dsimp only [pending]
  simp only [Nat.add_sub_cancel]
  split
  · rcases hits ++ s.indexHits this i with _ | ⟨h₁, _ | ⟨h₂, hs⟩⟩ <;> rfl
  · rfl

/-- Rows are asked for. -/
def Rows (w : State) (this : ℕ) (c : Config) : Prop :=
  ∃ n hits, c = .waiting (pending w this (n + 1) .two hits) 0

theorem payloads_length (h : NonLockingIndexEntry)
    (hs : List NonLockingIndexEntry) :
    ∃ n, (payloads (h :: hs)).length = n + 1 := by
  have hmem : h.engineid ∈ payloads (h :: hs) := by
    rw [payloads, List.mem_dedup]
    exact List.mem_cons_self
  exact ⟨_, (Nat.succ_pred_eq_of_pos (List.length_pos_of_mem hmem)).symm⟩

variable (s w this i hits) in
/-- The last reply of the first round. -/
theorem step_lasthits :
    (hits ++ s.indexHits this i ≠ [] → Rows w this
      (step s (.waiting (pending w this 1 .one hits) i))) ∧
    (hits ++ s.indexHits this i = [] →
      step s (.waiting (pending w this 1 .one hits) i) =
        .stopped .misled) := by
  rw [step_hits, if_pos rfl]
  refine ⟨fun hne => ?_, fun hnil => by rw [hnil]⟩
  split
  · next hnil => exact absurd hnil hne
  · exact ⟨0, _, rfl⟩
  · next h₁ h₂ hs _ =>
      obtain ⟨n, hn⟩ := payloads_length h₁ (h₂ :: hs)
      rw [hn]
      exact ⟨n, _, rfl⟩

variable (s this) in
/-- One reply is to come. -/
theorem first_reply (i : ℕ) :
    (∃ j < 0 + 1, s.indexHits this (i + j) ≠ []) ↔
      s.indexHits this i ≠ [] := by
  refine ⟨fun h => ?_, fun hne => ⟨0, Nat.zero_lt_one, hne⟩⟩
  obtain ⟨j, hj, hne⟩ := h
  obtain rfl : j = 0 := by omega
  exact hne

theorem first_hit : (∃ j < 0 + 1, s.indexHits this j ≠ []) ↔
    s.indexHits this 0 ≠ [] := by
  have h := first_reply s this 0
  simpa only [Nat.zero_add] using h

variable (s w this) in
/-- By induction on the replies that are to come. -/
theorem hits_turn (n : ℕ) : ∀ i hits,
    (hits ≠ [] ∨ (∃ j < n + 1, s.indexHits this (i + j) ≠ []) →
      Attains (step s) (Off s) (.waiting (pending w this (n + 1) .one hits) i)
        (Rows w this)) ∧
    (¬ (hits ≠ [] ∨ ∃ j < n + 1, s.indexHits this (i + j) ≠ []) →
      Strays (step s) Busy
        (.waiting (pending w this (n + 1) .one hits) i)) := by
  induction n with
  | zero =>
      intro i hits
      obtain ⟨hrows, hmisled⟩ := step_lasthits s w this i hits
      have hiff : (hits ≠ [] ∨ ∃ j < 0 + 1, s.indexHits this (i + j) ≠ []) ↔
          hits ++ s.indexHits this i ≠ [] := by
        rw [ne_eq (hits ++ s.indexHits this i), List.append_eq_nil_iff,
          not_and_or]
        exact or_congr Iff.rfl (first_reply s this i)
      rw [hiff]
      refine ⟨fun hne => .of_step (.here (hrows hne)), fun hnil => ?_⟩
      refine .of_step ?_
      rw [hmisled (not_not.mp hnil)]
      exact strays_stopped _
  | succ n ih =>
      intro i hits
      have hstep : step s (.waiting (pending w this (n + 1 + 1) .one hits) i) =
          .waiting (pending w this (n + 1) .one (hits ++ s.indexHits this i))
            (i + 1) := by
        rw [step_hits, if_neg (Nat.succ_ne_zero n)]
      have hiff : (hits ≠ [] ∨
          ∃ j < n + 1 + 1, s.indexHits this (i + j) ≠ []) ↔
          hits ++ s.indexHits this i ≠ [] ∨
            ∃ j < n + 1, s.indexHits this (i + 1 + j) ≠ [] := by
        rw [ne_eq (hits ++ s.indexHits this i), List.append_eq_nil_iff,
          not_and_or, or_assoc]
        refine or_congr Iff.rfl ⟨fun h => ?_, fun h => ?_⟩
        · obtain ⟨j, hj, hne⟩ := h
          cases j with
          | zero => exact .inl hne
          | succ j =>
              refine .inr ⟨j, by omega, ?_⟩
              rwa [show i + 1 + j = i + (j + 1) by omega]
        · rcases h with hne | ⟨j, hj, hne⟩
          · exact ⟨0, by omega, hne⟩
          · refine ⟨j + 1, by omega, ?_⟩
            rwa [show i + (j + 1) = i + 1 + j by omega]
      obtain ⟨hgood, hbad⟩ := ih (i + 1) (hits ++ s.indexHits this i)
      rw [hiff]
      refine ⟨fun h => .of_step ?_, fun h => .of_step ?_⟩
      · rw [hstep]
        exact hgood h
      · rw [hstep]
        exact hbad h

variable (s w this) in
/-- Both rounds. -/
theorem rounds_turn (k : ℕ) :
    (s.lockpendingcount = 0 → (∃ j < k + 1, s.indexHits this j ≠ []) →
      Attains (step s) (Off s) (.waiting (pending w this (k + 1) .one []) 0)
        (Resumed w this)) ∧
    (¬ (s.lockpendingcount = 0 ∧ ∃ j < k + 1, s.indexHits this j ≠ []) →
      Calm s → Strays (step s) Busy
        (.waiting (pending w this (k + 1) .one []) 0)) := by
  obtain ⟨hgood, hbad⟩ := hits_turn s w this k 0 []
  simp only [Nat.zero_add] at hgood hbad
  refine ⟨fun hlock hhit => (hgood (.inr hhit)).trans ?_, fun hnot hcalm => ?_⟩
  · rintro _ ⟨n, hits, rfl⟩
    exact rows_resumed hlock n 0
  · by_cases hhit : ∃ j < k + 1, s.indexHits this j ≠ []
    · refine (hgood (.inr hhit)).strays (fun d hd => hd.2 hcalm) ?_
      rintro _ ⟨n, hits, rfl⟩
      exact rows_stray (fun hlock => hnot ⟨hlock, hhit⟩) hcalm n 0
    · exact hbad fun h => h.elim (fun h => h rfl) hhit

/-! ## A request -/

theorem leave_pending :
    leave (pending w this (n + 1) ep hits) this .statement =
      .waiting (pending w this (n + 1) ep hits) 0 :=
  if_pos ⟨rfl, Nat.succ_pos n, rfl, rfl⟩

/-- Without a message the call is left standing. -/
theorem leave_stalled (h : w.inflight = 0) :
    leave w this .statement = .stopped .stalled :=
  if_neg fun hout => absurd hout.2.1 (by omega)

theorem strays_left (h : w.inflight = 0) :
    Strays (step s) Busy (leave w this .statement) := by
  rw [leave_stalled h]
  exact strays_stopped _

/-- The state in which `sqlPredicate` sends. -/
def asking (w : State) (this : ℕ) : State :=
  { w with
    sqlcmdstate := { continuationData := this }
    pendingcmd := true }

theorem sendPredicate_eq (s : Surroundings) (w : State) (this fieldid : ℕ)
    (f : Field) (heq : op ≠ .eq) (hnull : op ≠ .isnull) :
    sendPredicate s op fieldid f (asking w this) =
      some (pending w this s.numpartitions .one []) ∧
      (Answered s op fieldid f this ↔
        ∃ i < s.numpartitions, s.indexHits this i ≠ []) := by
  cases op with
  | eq => exact absurd rfl heq
  | isnull => exact absurd rfl hnull
  | _ => exact ⟨rfl, Iff.rfl⟩

variable (s op this) in
/-- What is sent where there are engines, `sendPredicate`. -/
theorem sent_turn (fieldid : ℕ) (f : Field) (hinflight : w.inflight = 0)
    (hengines : 0 < s.numpartitions) :
    ∃ w', sendPredicate s op fieldid f (asking w this) = some w' ∧
      (s.lockpendingcount = 0 → Answered s op fieldid f this →
        Attains (step s) (Off s) (leave w' this .statement)
          (Resumed w this)) ∧
      (¬ (s.lockpendingcount = 0 ∧ Answered s op fieldid f this) → Calm s →
        Strays (step s) Busy (leave w' this .statement)) := by
  have hne : ¬ s.numpartitions = 0 := by omega
  obtain ⟨hgood, hbad⟩ := rounds_turn s w this 0
  rw [first_hit] at hgood hbad
  by_cases heq : op = .eq
  · subst heq
    by_cases hty : f.type = .nofieldtype
    · refine ⟨_, if_pos hty, fun _ h => absurd hty h.1, fun _ _ => ?_⟩
      exact strays_left hinflight
    · by_cases hunique : fieldid = 0 ∧ f.indextype.isunique = true
      · refine ⟨pending w this 1 .two [], ?_, ?_⟩
        · rw [sendPredicate, if_neg hty, if_neg hne, if_pos hunique]
          rfl
        · rw [leave_pending]
          refine ⟨fun hlock _ => rows_resumed hlock 0 0, fun hnot hcalm => ?_⟩
          exact rows_stray (fun hlock => hnot ⟨hlock, hty, .inl hunique⟩) hcalm
            0 0
      · refine ⟨pending w this 1 .one [], ?_, ?_⟩
        · rw [sendPredicate, if_neg hty, if_neg hne, if_neg hunique]
          rfl
        · rw [leave_pending]
          exact ⟨fun hlock h => hgood hlock (h.2.resolve_left hunique),
            fun hnot => hbad fun h => hnot ⟨h.1, hty, .inr h.2⟩⟩
  · by_cases hnull : op = .isnull
    · subst hnull
      refine ⟨pending w this 1 .one [], if_neg hne, ?_⟩
      rw [leave_pending]
      exact ⟨hgood, hbad⟩
    · obtain ⟨hsend, hiff⟩ := sendPredicate_eq s w this fieldid f heq hnull
      refine ⟨_, hsend, ?_⟩
      rw [hiff]
      obtain ⟨k, hk⟩ := Nat.exists_eq_succ_of_ne_zero hne
      rw [hk, leave_pending]
      exact rounds_turn s w this k

/-- Where there are none, nothing is sent, or the call does not return. -/
theorem unsent_strays {fieldid : ℕ} {f : Field} (hinflight : w.inflight = 0)
    (hengines : s.numpartitions = 0)
    (hw' : sendPredicate s op fieldid f (asking w this) = some w') :
    Strays (step s) Busy (leave w' this .statement) := by
  by_cases heq : op = .eq
  · subst heq
    rw [sendPredicate, if_pos hengines] at hw'
    split at hw'
    · rw [← Option.some.inj hw']
      exact strays_left hinflight
    · cases hw'
  · by_cases hnull : op = .isnull
    · subst hnull
      rw [sendPredicate, if_pos hengines] at hw'
      cases hw'
    · obtain ⟨hsend, -⟩ := sendPredicate_eq s w this fieldid f heq hnull
      rw [hsend] at hw'
      rw [← Option.some.inj hw']
      exact strays_left hengines

/-- Where the operand is of a field. -/
def request (s : Surroundings) (op : Operatortype) (fieldid : ℕ) (f : Field)
    (right : Bytes) (w : State) : Option State :=
  match searchParams op right with
  | .trapped => none
  | .returns => some w
  | .ready => sendPredicate s op fieldid f w

variable (s op this) in
/-- A predicate asks the engines. For a truth test on NULL both operands are the
right one. -/
theorem asked_turn (hinflight : w.inflight = 0)
    (hnull : op = .isnull ∨ op = .isnotnull → left = right) :
    (Idle s w ∧ Asks s op this left right →
      ∃ w', sqlPredicate s op left right this w = some w' ∧
        Attains (step s) (Off s) (leave w' this .statement)
          (Resumed w this)) ∧
    (¬ (Idle s w ∧ Asks s op this left right) →
      ∀ w', sqlPredicate s op left right this w = some w' → Calm s →
        Strays (step s) Busy (leave w' this .statement)) := by
  have hfieldid : (if op = .isnull ∨ op = .isnotnull then right else left) =
      left := by
    split
    · next h => exact (hnull h).symm
    · rfl
  cases hp : w.pendingcmd with
  | true =>
      have hnone : sqlPredicate s op left right this w = none := by
        rw [sqlPredicate]
        dsimp only
        rw [if_pos hp]
      refine ⟨fun h => ?_, fun _ w' hw' => ?_⟩
      · rw [h.1.1] at hp
        cases hp
      · rw [hnone] at hw'
        cases hw'
  | false =>
      have heq : sqlPredicate s op left right this w =
          if operandType left ≠ operandFieldid then some (asking w this)
          else
            (s.fields[(integerOf left).toNat]?).bind fun f =>
              request s op (integerOf left).toNat f right (asking w this) := by
        rw [sqlPredicate]
        dsimp only
        rw [if_neg (by rw [hp]; simp), hfieldid]
        cases s.fields[(integerOf left).toNat]? <;> rfl
      have hidle : Idle s w ↔ s.lockpendingcount = 0 :=
        and_iff_right hp
      rw [heq, hidle]
      by_cases hleft : operandType left = operandFieldid
      · rw [if_neg (not_not.mpr hleft)]
        cases hf : s.fields[(integerOf left).toNat]? with
        | none =>
            refine ⟨fun h => ?_, fun _ w' hw' => (by cases hw')⟩
            obtain ⟨-, -, -, f, hfield, -⟩ := h.2
            rw [hf] at hfield
            cases hfield
        | some f =>
            rw [Option.bind_some, request]
            have hasks : Asks s op this left right ↔
                searchParams op right = .ready ∧ 0 < s.numpartitions ∧
                  Answered s op (integerOf left).toNat f this := by
              refine ⟨fun h => ?_,
                fun h => ⟨hleft, h.1, h.2.1, f, hf, h.2.2⟩⟩
              obtain ⟨-, hready, hengines, g, hg, hans⟩ := h
              refine ⟨hready, hengines, ?_⟩
              rw [hf] at hg
              rwa [Option.some.inj hg]
            rw [hasks]
            cases hparams : searchParams op right with
            | ready =>
                by_cases hengines : 0 < s.numpartitions
                · obtain ⟨w'', hsend, hgood, hbad⟩ := sent_turn s op this
                    (integerOf left).toNat f hinflight hengines
                  refine ⟨fun h => ⟨w'', hsend, hgood h.1 h.2.2.2⟩,
                    fun hnot w' hw' => ?_⟩
                  rw [Option.some.inj (hw'.symm.trans hsend)]
                  exact hbad fun h => hnot ⟨h.1, rfl, hengines, h.2⟩
                · refine ⟨fun h => absurd h.2.2.1 hengines,
                    fun _ w' hw' _ => ?_⟩
                  exact unsent_strays hinflight (by omega) hw'
            | returns =>
                refine ⟨fun h => (by cases h.2.1), fun _ w' hw' _ => ?_⟩
                rw [← Option.some.inj hw']
                exact strays_left hinflight
            | trapped =>
                exact ⟨fun h => (by cases h.2.1),
                  fun _ w' hw' => (by cases hw')⟩
      · rw [if_pos hleft]
        refine ⟨fun h => absurd h.2.1 hleft, fun _ w' hw' _ => ?_⟩
        rw [← Option.some.inj hw']
        exact strays_left hinflight

end Infinisql.Conditions
