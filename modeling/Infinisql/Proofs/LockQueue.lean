import Infinisql.Spec.LockQueue

/-!
# A drained queue answers nobody

The message that is made for a waiter has no rows, and `returnRows[0]` is
assigned to: `answer_eq_none`. So the loop comes to its end only over entries
whose subtransactions are gone, for which nothing is owed, `drain_eq`, and the
replies are as they should be if there is nobody to reply to.
-/

namespace Infinisql.Queues

open Infinisql.Ref (LockQueueRowEntry Table)

variable {engine : Engine} {t : Table} {rowid : Int}
  {queue : List LockQueueRowEntry}

/-- No reply gets as far as being sent. -/
theorem answer_eq_none (entry : LockQueueRowEntry) (s : SubTransaction) :
    answer engine rowid entry s = none := rfl

/-- The loop: over entries that are all gone it sends nothing, and at any other
it ends. -/
theorem drain_eq : drain engine rowid queue =
    if ∃ entry ∈ queue, (engine.subTransactions entry.subtransactionid).isSome
      then none else some [] := by
  induction queue with
  | nil =>
      rw [if_neg (by simp)]
      rfl
  | cons entry queue ih =>
      unfold drain
      cases hs : engine.subTransactions entry.subtransactionid with
      | none =>
          have hiff : (∃ e ∈ entry :: queue,
              (engine.subTransactions e.subtransactionid).isSome) ↔
              ∃ e ∈ queue,
                (engine.subTransactions e.subtransactionid).isSome := by
            simp only [List.mem_cons, exists_eq_or_imp, hs, Option.isSome_none,
              Bool.false_eq_true, false_or]
          dsimp only
          rw [ih, if_congr hiff rfl rfl]
      | some s =>
          have hlive : ∃ e ∈ entry :: queue,
              (engine.subTransactions e.subtransactionid).isSome :=
            ⟨entry, List.mem_cons_self, by rw [hs]; rfl⟩
          rw [if_pos hlive]
          rfl

theorem owed_eq_nil (h : ¬ ∃ entry ∈ queue,
    (engine.subTransactions entry.subtransactionid).isSome) :
    owed engine rowid queue = [] := by
  unfold owed
  refine List.filterMap_eq_nil_iff.mpr fun entry he => ?_
  rw [Option.map_eq_none_iff, ← Option.not_isSome_iff_eq_none]
  exact fun hs => h ⟨entry, he, hs⟩

/-- What it does to the table is what `Ref.Table.drainRowLockQueue` says. -/
theorem drainRowLockQueue_table {subTransactions : Finset Int}
    (h : ∀ id, (engine.subTransactions id).isSome ↔ id ∈ subTransactions) :
    (drainRowLockQueue engine t rowid).map Prod.fst =
      t.drainRowLockQueue subTransactions rowid := by
  unfold drainRowLockQueue Ref.Table.drainRowLockQueue
  have hany : ((t.lockQueue rowid).any fun entry =>
      decide (entry.subtransactionid ∈ subTransactions)) = true ↔
      ∃ entry ∈ t.lockQueue rowid,
        (engine.subTransactions entry.subtransactionid).isSome := by
    simp only [List.any_eq_true, decide_eq_true_eq, h]
  rw [drain_eq]
  by_cases hlive : ∃ entry ∈ t.lockQueue rowid,
      (engine.subTransactions entry.subtransactionid).isSome
  · rw [if_pos hlive, if_pos (hany.mpr hlive)]
    rfl
  · rw [if_neg hlive, if_neg (mt hany.mp hlive)]
    rfl

/-- The waiters are answered if there are none. -/
theorem answersWaiters_iff :
    AnswersWaiters engine t rowid ↔ ¬ HasWaiter engine t rowid := by
  unfold AnswersWaiters drainRowLockQueue HasWaiter
  rw [drain_eq]
  by_cases hlive : ∃ entry ∈ t.lockQueue rowid,
      (engine.subTransactions entry.subtransactionid).isSome
  · rw [if_pos hlive]
    refine iff_of_false ?_ (not_not_intro hlive)
    rintro ⟨t', sent, h, -⟩
    exact absurd h (by simp)
  · rw [if_neg hlive]
    exact iff_of_true ⟨_, [], rfl, Function.update_self _ _ _,
      (owed_eq_nil hlive).symm⟩ hlive

/-- A table with a row that subtransaction 1 has locked. -/
def lockedTable : Table :=
  let row : Ref.Rowdata :=
    { writelockHolder := 1, flags := Ref.setwritelock 0 }
  ((Table.new 1 0).alloc row).setRow 7 (some 0)

/-- An engine with subtransaction 2. -/
def engineTwo : Engine where
  partitionid := 0
  subTransactions := fun id =>
    if id = 2 then some ⟨⟨1, 3⟩, 5, 2⟩ else none

/-- Subtransaction 2 asks for the row and waits for it, and when the row's
queue is drained it is not told. -/
theorem waiter_not_answered : ∃ locktype t,
    lockedTable.assignToLockQueue 7 .writeLock 2 9 4 = some (locktype, t) ∧
      ¬ AnswersWaiters engineTwo t 7 := by
  refine ⟨_, _, rfl, ?_⟩
  rintro ⟨t', sent, h, -⟩
  cases h

end Infinisql.Queues
