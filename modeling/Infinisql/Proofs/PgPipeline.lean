import Infinisql.Lib.Run
import Infinisql.Spec.PgSession

/-!
# Queries that arrive too early

A session has no queue. A query is started when it arrives, whatever the
session waits for, so queries are executed in turn only if the client sends
each one when the one before it has been answered.

For such a client the proof follows one query: it waits for a statement, then
for a commit, and never for more than one thing.
-/

namespace Infinisql.Proofs

open Infinisql.Lib
open Infinisql.Ref.Session Infinisql.Spec.Session

/-! ## What a session comes to wait for -/

def isCommit : Ref.Session.Pending → Bool
  | .statement .. => false
  | .commitimplicit | .commitexplicit => true

/-- It waits for what it did before, and perhaps for a commit. -/
def AtMostCommit (pg pg' : Pg) : Prop :=
  pg'.pending = pg.pending ∨
    ∃ c, isCommit c = true ∧ pg'.pending = pg.pending ++ [c]

theorem writesocket_pending (pg : Pg) :
    pg.writesocket.pending = pg.pending := by
  unfold Pg.writesocket Pg.put
  split
  · rfl
  · split <;> rfl

theorem deleteTransaction_pending (pg : Pg) :
    pg.deleteTransaction.pending = pg.pending := by
  unfold Pg.deleteTransaction
  split <;> rfl

theorem putErrorResponse_pending (pg : Pg) (severity code message : String) :
    (pg.putErrorResponse severity code message).pending = pg.pending :=
  writesocket_pending _

theorem errorStatus_pending (pg : Pg) (status : Int) :
    (pg.errorStatus status).pending = pg.pending := by
  unfold Pg.errorStatus
  split
  · exact putErrorResponse_pending ..
  · split
    · exact putErrorResponse_pending ..
    · split <;> exact putErrorResponse_pending ..

theorem commitimplicit_pending (pg : Pg) :
    pg.continuePgCommitimplicit.pending = pg.pending :=
  (writesocket_pending _).trans (deleteTransaction_pending pg)

theorem commitexplicit_pending (pg : Pg) :
    pg.continuePgCommitexplicit.pending = pg.pending :=
  (writesocket_pending _).trans (deleteTransaction_pending _)

theorem rollbackimplicit_pending (pg : Pg) :
    pg.continuePgRollbackimplicit.pending = pg.pending :=
  deleteTransaction_pending _

theorem rollbackexplicit_pending (pg : Pg) :
    pg.continuePgRollbackexplicit.pending = pg.pending :=
  (writesocket_pending _).trans (deleteTransaction_pending pg)

theorem sqlrollbackimplicit_pending (pg : Pg) :
    pg.sqlrollbackimplicit.pending = pg.pending := by
  unfold Pg.sqlrollbackimplicit
  dsimp only
  split <;> split <;> exact rollbackimplicit_pending _

theorem failed_pending (pg : Pg) (status : Int) :
    (pg.failed status).pending = pg.pending :=
  (errorStatus_pending _ status).trans (sqlrollbackimplicit_pending pg)

theorem finish_atMostCommit (pg : Pg) : AtMostCommit pg pg.finish := by
  unfold Pg.finish
  split
  · unfold Pg.sqlcommitimplicit
    split
    · exact .inl (commitimplicit_pending pg)
    · exact .inr ⟨_, rfl, rfl⟩
  · exact .inl (writesocket_pending pg)

theorem continuePgFunc_atMostCommit (pg : Pg) :
    AtMostCommit pg pg.continuePgFunc := by
  have hfinish : ∀ pg₁ : Pg, pg₁.pending = pg.pending →
      AtMostCommit pg pg₁.finish := by
    intro pg₁ h
    have hfin := finish_atMostCommit pg₁
    unfold AtMostCommit at hfin
    rw [h] at hfin
    exact hfin
  have hfailed : ∀ (pg₁ : Pg) status, pg₁.pending = pg.pending →
      AtMostCommit pg (pg₁.failed status) :=
    fun pg₁ status h => .inl ((failed_pending pg₁ status).trans h)
  have hwrite : ∀ pg₁ : Pg, pg₁.pending = pg.pending →
      AtMostCommit pg pg₁.writesocket :=
    fun pg₁ h => .inl ((writesocket_pending pg₁).trans h)
  unfold Pg.continuePgFunc
  dsimp only
  cases pg.results.cmdtype <;> dsimp only
  case select =>
    split
    · exact hfinish _ rfl
    · exact hfailed _ _ rfl
  case insert =>
    split
    · exact hfinish _ rfl
    · exact hfailed _ _ rfl
  case update =>
    split
    · exact hfinish _ rfl
    · exact hfailed _ _ rfl
  case delete =>
    split
    · exact hfinish _ rfl
    · exact hfailed _ _ rfl
  case storedprocedure =>
    split
    · exact hfinish _ rfl
    · exact hfailed _ _ rfl
  case begin => split <;> exact hwrite _ rfl
  case commit =>
    split
    · unfold Pg.sqlcommitexplicit
      split
      · exact .inl (commitexplicit_pending _)
      · exact .inr ⟨_, rfl, rfl⟩
    · exact hwrite _ rfl
  case rollback =>
    split
    · unfold Pg.sqlrollbackexplicit
      split <;> exact .inl (rollbackexplicit_pending _)
    · exact hwrite _ rfl
  all_goals exact .inl rfl

/-- A statement that comes back may leave a commit to wait for, a commit
nothing. -/
theorem returns_pending (pg : Pg) (p : Ref.Session.Pending) (status : Int)
    (rows : Nat) :
    AtMostCommit pg (pg.returns p status rows) ∧
      (isCommit p = true →
        (pg.returns p status rows).pending = pg.pending) := by
  unfold Pg.returns
  cases p with
  | statement stmt tx =>
      refine ⟨?_, fun h => by cases h⟩
      cases tx with
      | none => exact continuePgFunc_atMostCommit _
      | some tx =>
          dsimp only
          split <;> exact continuePgFunc_atMostCommit _
  | commitimplicit =>
      exact ⟨.inl (commitimplicit_pending pg),
        fun _ => commitimplicit_pending pg⟩
  | commitexplicit =>
      exact ⟨.inl (commitexplicit_pending pg),
        fun _ => commitexplicit_pending pg⟩

/-- A query leaves at most one thing more to wait for. -/
theorem cont_pending {pg pg' : Pg} {query : Option Statement}
    (h : pg.cont query = some pg') : pg'.pending = pg.pending ∨
      ∃ p, pg'.pending = pg.pending ++ [p] := by
  have hback : ∀ pg₁ : Pg, pg₁.pending = pg.pending →
      pg₁.continuePgFunc.pending = pg.pending ∨
        ∃ p, pg₁.continuePgFunc.pending = pg.pending ++ [p] := by
    intro pg₁ h₁
    rw [← h₁]
    rcases continuePgFunc_atMostCommit pg₁ with heq | ⟨c, _, heq⟩
    · exact .inl heq
    · exact .inr ⟨c, heq⟩
  have hrun : ∀ (pg₁ : Pg) stmt, pg₁.pending = pg.pending →
      ∃ p, (pg₁.executeInTransaction stmt).pending = pg.pending ++ [p] := by
    intro pg₁ stmt h₁
    rw [← h₁]
    unfold Pg.executeInTransaction
    dsimp only
    split <;> exact ⟨_, rfl⟩
  have hexecute : ∀ (pg₁ : Pg) stmt, pg₁.pending = pg.pending →
      pg₁.execute stmt = some pg' → pg'.pending = pg.pending ∨
        ∃ p, pg'.pending = pg.pending ++ [p] := by
    intro pg₁ stmt h₁ hpg'
    unfold Pg.execute at hpg'
    cases htype : stmt.type <;> rw [htype] at hpg' <;> dsimp only at hpg'
    case insert =>
      split at hpg'
      · cases hpg'
        exact .inr (hrun _ stmt h₁)
      · cases hpg'
    case select =>
      cases hpg'
      exact .inr (hrun _ stmt h₁)
    case update =>
      cases hpg'
      exact .inr (hrun _ stmt h₁)
    case delete =>
      cases hpg'
      exact .inr (hrun _ stmt h₁)
    case storedprocedure =>
      split at hpg'
      · cases hpg'
        exact .inr ⟨.statement stmt none, by rw [← h₁]⟩
      · cases hpg'
        exact hback _ h₁
    all_goals
      cases hpg'
      exact hback _ h₁
  unfold Pg.cont at h
  dsimp only at h
  cases hstate : pg.state <;> rw [hstate] at h <;> dsimp only at h
  case established =>
    unfold Pg.executeStatement at h
    split at h
    · cases h
      exact .inl (putErrorResponse_pending ..)
    · split at h
      · cases h
        exact .inl ((putErrorResponse_pending ..).trans
          (sqlrollbackimplicit_pending _))
      · exact hexecute _ _ (by rfl) h
  case aborted =>
    cases h
    refine .inl ?_
    unfold Pg.contAborted
    split
    · exact putErrorResponse_pending ..
    · split
      · exact writesocket_pending _
      · exact putErrorResponse_pending ..
  all_goals
    cases h
    exact .inl rfl

/-! ## Events in turn -/

theorem settle_cons {pg : Pg} {p : Ref.Session.Pending}
    {rest : List Ref.Session.Pending}
    (h : pg.pending = p :: rest) (o : Int × Nat) : pg.settle (some o) =
      some ({ pg with pending := rest }.returns p o.1 o.2) := by
  unfold Pg.settle
  rw [h]

theorem settle_nil {pg : Pg} (h : pg.pending = [])
    (outcome : Option (Int × Nat)) : pg.settle outcome = some pg := by
  unfold Pg.settle
  rw [h]

/-- What comes back to a session that waits for one thing is that. -/
theorem step_returns {pg pg' : Pg} {p : Ref.Session.Pending} {i : Nat}
    {status : Int}
    {rows : Nat} (hp : pg.pending = [p])
    (h : step pg (.returns i status rows) = some pg') :
    pg' = { pg with pending := [] }.returns p status rows := by
  unfold step at h
  dsimp only at h
  rw [hp] at h
  cases i with
  | zero =>
      cases h
      rfl
  | succ i => cases h

theorem alone_concat {done : List Ask} {pg₁ pg : Pg} {a : Ask}
    (h : alone done = some pg₁) (ha : pg₁.answer a.query a.outcome = some pg) :
    alone (done ++ [a]) = some pg := by
  unfold alone at h ⊢
  rw [List.foldlM_append, h]
  simpa using ha

theorem returns_commit {pg : Pg} {p : Ref.Session.Pending}
    (h : isCommit p = true) (status status' : Int) (rows rows' : Nat) :
    pg.returns p status rows = pg.returns p status' rows' := by
  cases p with
  | statement stmt tx => cases h
  | commitimplicit => rfl
  | commitexplicit => rfl

/-- A session that has been asked one at a time, and all answers. -/
structure AtRest (done : List Ask) (arrived : List (Option Statement))
    (pg₁ : Pg) : Prop where
  alone : alone done = some pg₁
  arrived : arrived = done.map (·.query)
  pending : pg₁.pending = []

/-- The invariant: `InTurn`, and what the session waits for. -/
def Turn (l : Line) : Prop :=
  ∃ done pg₁ arrived, AtRest done arrived pg₁ ∧
    ((l.arrived = arrived ∧ l.pg = pg₁) ∨
      ∃ query, l.arrived = arrived ++ [query] ∧
        ((pg₁.cont query = some l.pg ∧ ∃ p, l.pg.pending = [p]) ∨
          ∃ o pg₀, pg₁.cont query = some pg₀ ∧
            pg₀.settle (some o) = some l.pg ∧
            ∃ c, isCommit c = true ∧ l.pg.pending = [c]))

theorem Turn.inTurn {l : Line} (h : Turn l) : InTurn l := by
  obtain ⟨done, pg₁, arrived, hrest, hor⟩ := h
  refine ⟨done, pg₁, hrest.alone, ?_⟩
  rw [← hrest.arrived]
  rcases hor with hrested | ⟨query, harrived, hunder⟩
  · exact .inl hrested
  · refine .inr ⟨query, harrived, ?_⟩
    rcases hunder with ⟨hcont, p, hp⟩ | ⟨o, pg₀, hcont, hsettle, c, _, hc⟩
    · exact ⟨by rw [hp]; simp, .inl hcont⟩
    · exact ⟨by rw [hc]; simp, .inr ⟨o, by rw [hcont]; exact hsettle⟩⟩

/-- The query underway is answered. -/
theorem Turn.answered {done : List Ask} {pg₁ pg : Pg}
    {arrived : List (Option Statement)} {query : Option Statement}
    (outcome : Option (Int × Nat)) (h : AtRest done arrived pg₁)
    (ha : pg₁.answer query outcome = some pg) (hpending : pg.pending = []) :
    Turn { pg, arrived := arrived ++ [query] } := by
  refine ⟨done ++ [⟨query, outcome⟩], pg, arrived ++ [query],
    ⟨alone_concat h.alone ha, ?_, hpending⟩, .inl ⟨rfl, rfl⟩⟩
  rw [List.map_append, ← h.arrived]
  rfl

theorem Turn.query {l l' : Line} {query : Option Statement} (h : Turn l)
    (hwait : l.pg.pending = []) (hs : arrive l (.query query) = some l') :
    Turn l' := by
  obtain ⟨pg', hpg', hl'⟩ := Option.bind_eq_some_iff.mp hs
  cases hl'
  obtain ⟨done, pg₁, arrived, hrest, hor⟩ := h
  rcases hor with ⟨harrived, hpg⟩ |
    ⟨q, _, ⟨_, p, hp⟩ | ⟨o, pg₀, _, _, c, _, hc⟩⟩
  · rw [hpg] at hpg'
    rw [harrived]
    have hpending := cont_pending hpg'
    rw [hrest.pending] at hpending
    rcases hpending with hnil | ⟨p, hp⟩
    · refine .answered none hrest ?_ hnil
      have hcont : pg₁.cont query = some pg' := hpg'
      unfold Pg.answer
      rw [hcont]
      simp only [Option.bind_eq_bind, Option.bind_some, settle_nil hnil]
    · exact ⟨done, pg₁, arrived, hrest,
        .inr ⟨query, rfl, .inl ⟨hpg', p, hp⟩⟩⟩
  · rw [hwait] at hp
    cases hp
  · rw [hwait] at hc
    cases hc

theorem Turn.returns {l l' : Line} {i : Nat} {status : Int} {rows : Nat}
    (h : Turn l) (hs : arrive l (.returns i status rows) = some l') :
    Turn l' := by
  obtain ⟨pg', hpg', hl'⟩ := Option.bind_eq_some_iff.mp hs
  cases hl'
  obtain ⟨done, pg₁, arrived, hrest, hor⟩ := h
  rcases hor with ⟨harrived, hpg⟩ |
    ⟨q, harrived, ⟨hcont, p, hp⟩ | ⟨o, pg₀, hcont, hsettle, c, hcommit, hc⟩⟩
  · unfold step at hpg'
    dsimp only at hpg'
    rw [hpg, hrest.pending] at hpg'
    cases hpg'
  · rw [harrived]
    obtain rfl := step_returns hp hpg'
    have hsettle := settle_cons hp (status, rows)
    rcases (returns_pending { l.pg with pending := [] } p status rows).1 with
      hnil | ⟨c, hcommit, hc⟩
    · refine .answered (some (status, rows)) hrest ?_ hnil
      unfold Pg.answer
      rw [hcont, Option.bind_eq_bind, Option.bind_some, hsettle]
      exact settle_nil hnil _
    · exact ⟨done, pg₁, arrived, hrest, .inr ⟨q, rfl,
        .inr ⟨(status, rows), l.pg, hcont, hsettle, c, hcommit, hc⟩⟩⟩
  · rw [harrived]
    obtain rfl := step_returns hc hpg'
    have hnil : (({ l.pg with pending := [] } : Pg).returns c o.1 o.2).pending =
        [] := (returns_pending _ c o.1 o.2).2 hcommit
    rw [returns_commit hcommit status o.1 rows o.2]
    refine .answered (some o) hrest ?_ hnil
    unfold Pg.answer
    rw [hcont, Option.bind_eq_bind, Option.bind_some, hsettle]
    exact settle_cons hc o

/-- Queries that each arrive when the session waits for nothing are executed
in turn. -/
theorem allStates_inTurn (es : List Event)
    (h : AllSteps arrive WaitsItsTurn {} es) :
    AllStates arrive InTurn {} es := by
  have hturn : AllStates arrive Turn {} es := by
    refine AllSteps.allStates (fun l e l' hwait hl hs => ?_) h
      ⟨[], {}, [], ⟨rfl, rfl, rfl⟩, .inl ⟨rfl, rfl⟩⟩
    cases e with
    | query query => exact hl.query hwait hs
    | returns i status rows => exact hl.returns hs
  exact hturn.imp fun l hl => hl.inTurn

/-- A block of one statement, query by query. -/
theorem allStates_inTurn_block : AllStates arrive InTurn {}
    [.query (some { type := .begin }), .query (some { type := .insert }),
      .returns 0 0 1, .query (some { type := .commit }), .returns 0 0 0] :=
  allStates_inTurn _ (.cons rfl rfl (.cons rfl rfl (.cons rfl trivial
    (.cons rfl rfl (.cons rfl trivial trivial)))))

/-! ## Queries too early -/

theorem settle_pending {pg pg' : Pg} {outcome : Option (Int × Nat)}
    (hpending : pg.pending = [] ∨ ∃ p, pg.pending = [p])
    (h : pg.settle outcome = some pg') : pg'.pending = [] ∨
      ∃ c, isCommit c = true ∧ pg'.pending = [c] := by
  rcases hpending with hnil | ⟨p, hp⟩
  · rw [settle_nil hnil] at h
    cases h
    exact .inl hnil
  · cases outcome with
    | none =>
        unfold Pg.settle at h
        rw [hp] at h
        cases h
    | some o =>
        rw [settle_cons hp] at h
        cases h
        exact (returns_pending _ p o.1 o.2).1

theorem settle_commit_pending {pg pg' : Pg} {outcome : Option (Int × Nat)}
    (hpending : pg.pending = [] ∨
      ∃ c, isCommit c = true ∧ pg.pending = [c])
    (h : pg.settle outcome = some pg') : pg'.pending = [] := by
  rcases hpending with hnil | ⟨c, hcommit, hc⟩
  · rw [settle_nil hnil] at h
    cases h
    exact hnil
  · cases outcome with
    | none =>
        unfold Pg.settle at h
        rw [hc] at h
        cases h
    | some o =>
        rw [settle_cons hc] at h
        cases h
        exact (returns_pending _ c o.1 o.2).2 hcommit

theorem cont_pending_of_nil {pg pg' : Pg} {query : Option Statement}
    (hnil : pg.pending = []) (h : pg.cont query = some pg') :
    pg'.pending = [] ∨ ∃ p, pg'.pending = [p] := by
  have hpending := cont_pending h
  rw [hnil] at hpending
  exact hpending

theorem answer_pending {pg pg' : Pg} {query : Option Statement}
    {outcome : Option (Int × Nat)} (hnil : pg.pending = [])
    (h : pg.answer query outcome = some pg') : pg'.pending = [] := by
  obtain ⟨pg₀, hcont, h⟩ := Option.bind_eq_some_iff.mp h
  obtain ⟨pg₁, hsettle, h⟩ := Option.bind_eq_some_iff.mp h
  exact settle_commit_pending
    (settle_pending (cont_pending_of_nil hnil hcont) hsettle) h

theorem alone_pending {asks : List Ask} {pg : Pg} (h : alone asks = some pg) :
    pg.pending = [] := by
  unfold alone at h
  have hgeneral : ∀ (asks : List Ask) (pg₀ : Pg), pg₀.pending = [] →
      asks.foldlM (fun pg a => pg.answer a.query a.outcome) pg₀ = some pg →
      pg.pending = [] := by
    intro asks
    induction asks with
    | nil =>
        intro pg₀ hnil h
        cases h
        exact hnil
    | cons a asks ih =>
        intro pg₀ hnil h
        rw [List.foldlM_cons] at h
        obtain ⟨pg₁, ha, h⟩ := Option.bind_eq_some_iff.mp h
        exact ih pg₁ (answer_pending hnil ha) h
  exact hgeneral asks {} rfl h

/-- In turn, a session waits for one thing at most. -/
theorem pending_le_of_inTurn {l : Line} (h : InTurn l) :
    l.pg.pending.length ≤ 1 := by
  obtain ⟨done, pg₁, halone, hor⟩ := h
  have hnil := alone_pending halone
  rcases hor with ⟨_, hpg⟩ | ⟨q, _, _, hcont | ⟨o, hsettle⟩⟩
  · rw [hpg, hnil]
    decide
  · rcases cont_pending_of_nil hnil hcont with heq | ⟨p, heq⟩ <;>
      rw [heq] <;> simp
  · obtain ⟨pg₀, hcont, hsettle⟩ := Option.bind_eq_some_iff.mp hsettle
    rcases settle_pending (cont_pending_of_nil hnil hcont) hsettle with
      heq | ⟨c, _, heq⟩ <;> rw [heq] <;> simp

/-- Two statements at once, each outside a block. The commit of the first
ends the second's transaction. -/
def pipelined : List Event :=
  [.query (some { type := .insert }), .query (some { type := .insert }),
    .returns 0 0 1, .returns 0 0 1, .returns 0 0 0, .returns 0 0 0]

/-- The transaction of the first statement is left over. -/
theorem pipelined_not_inTurn : (∃ l, run arrive {} pipelined = some l ∧
      l.pg.pending = [] ∧ l.pg.transactionPtr = none ∧
      l.pg.transactions = [0]) ∧
    ¬ AllStates arrive InTurn {} pipelined := by
  refine ⟨⟨_, rfl, by decide, by decide, by decide⟩, fun h => ?_⟩
  have hboth := (allStates_iff_run.mp h) (pipelined.take 2)
    (List.take_prefix 2 pipelined) _ rfl
  exact absurd (pending_le_of_inTurn hboth) (by decide)

end Infinisql.Proofs
