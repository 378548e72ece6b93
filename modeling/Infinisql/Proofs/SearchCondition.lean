import Infinisql.Proofs.SearchReplies
import Infinisql.Proofs.SearchValues

/-!
# Searches that are left standing

What a condition's operators do with their operands, each one by its own lemma:
it reaches the operator above, or strays. AND and OR only become operands; the
truth tests do so without saying where to go on; a predicate is behind its
request, and an IN behind its list as well; and what was never implemented goes
back and forth between the operator and the one above.

With these the walk along the term is one of all operators. At the root, where
there is nothing above and a call can return with `nextAstNode` never set, each
operator is looked at once more.
-/

namespace Infinisql.Conditions

open Infinisql.Ref (Bytes Field FieldValue integerOf integerOperand
  operandFieldid operandParameter operandString operandType)
open Infinisql.Asts (Node Operatortype Outcome)
open Infinisql.Lib

variable {s : Surroundings} {w w₀ w₁ w₂ : State} {h h' : Heap Node} {n : Node}
  {op : Operatortype} {this a : ℕ} {parent next : Option ℕ} {v lv rv : Bytes}
  {left right t : Term} {caller : Caller} {l l' : Lists} {F : List ℕ}
  {idle : Prop} [Decidable idle]

/-! ## What stands while a search goes on -/

/-- The lists are as they should be, nothing is in flight, and whether a command
is pending is as it was when the search began. -/
structure Stands (w₀ : State) (F : List ℕ) (w : State) (l : Lists) : Prop where
  listed : Listed w l.items
  within : ∀ b ∈ l.addresses, b ∈ F
  inValues : w.inValues = l.inValues
  inflight : w.inflight = 0
  pendingcmd : w.pendingcmd = w₀.pendingcmd

theorem Stands.kept {T : List ℕ} (hT : ∀ b ∈ T, b ∉ F) :
    Kept (Stands w₀ F) T := by
  intro w l h hst hsame
  refine ⟨⟨hst.listed.expressionlist, fun i hi => ?_, hst.listed.nodup⟩,
    hst.within, hst.inValues, hst.inflight, hst.pendingcmd⟩
  obtain ⟨hlaid, hexpr⟩ := hst.listed.terms i hi
  refine ⟨hlaid.of_same hsame fun b hb hin => hT b hin ?_, hexpr⟩
  exact hst.within b (List.mem_flatMap.mpr ⟨i, hi, hb⟩)

theorem Stands.idle_iff (hst : Stands w₀ F w l) : Idle s w ↔ Idle s w₀ := by
  rw [Idle, Idle, hst.pendingcmd]

/-- From a cell that has become an operand. -/
theorem back_turn (hv : IsOperand w.heap this parent v)
    (hne : operandType v ≠ operandParameter) :
    step s (.searching w this next caller) = upTo w caller parent := by
  rw [step, evaluate_operand hv hne, proceed_parent]

/-- A cell that has lost its children, and its operand is what it was: none. -/
theorem becomeUnary_operand {c r : ℕ} {ln rn : Node}
    (hch : Children h parent this op left right lv rv c r ln rn) :
    IsOperand (becomeUnary h this r) this parent [] ∧
      Same (Term.operator this op left right).addresses h
        (becomeUnary h this r) := by
  have heq : ∀ b, (becomeUnary h this r).get b =
      ((h.modify this fun n =>
        { n with
          operand := []
          isoperator := false
          rightchild := none }).free r).get b := by
    intro b
    rw [becomeUnary]
    by_cases hbr : b = r
    · rw [hbr, Heap.get_free_self, Heap.get_free_self]
    · rw [Heap.get_free_of_ne hbr, Heap.get_free_of_ne hbr]
      by_cases hb : b = this
      · rw [hb, Heap.get_modify_self, Heap.get_modify_self, hch.cell]
        rfl
      · rw [Heap.get_modify_of_ne hb, Heap.get_modify_of_ne hb]
  obtain ⟨⟨n, hn, hrest⟩, hsame⟩ := hch.becomeUnary []
  exact ⟨⟨n, (heq this).trans hn, hrest⟩, fun b hb =>
    (heq b).trans (hsame b hb)⟩

/-- Behind a request, if there is one. -/
def requested (this : ℕ) : Option State → Config
  | none => .stopped .trapped
  | some w => leave w this .statement

theorem proceed_request (request : Option State) :
    proceed next .statement this
      (request.map fun w => .returned w ⟨false, some none⟩) =
        requested this request := by
  cases request <;> rfl

variable (s op lv rv) in
/-- A request for a cell that has become an operand. -/
theorem request_turn {foot : List ℕ} (c : Config) (hst : Stands w₀ F w l)
    (hv : IsOperand w.heap this parent []) (hsame : Same foot h w.heap)
    (hnull : op = .isnull ∨ op = .isnotnull → lv = rv)
    (hc : step s c = requested this (sqlPredicate s op lv rv this w)) :
    (Idle s w₀ ∧ Asks s op this lv rv → Attains (step s) (Off s) c
      (Done .statement (Stands w₀ F) foot h parent this [] l)) ∧
    (¬ (Idle s w₀ ∧ Asks s op this lv rv) → Calm s →
      Strays (step s) Busy c) := by
  obtain ⟨hgood, hbad⟩ := asked_turn s op this
    hst.inflight hnull
  rw [hst.idle_iff] at hgood hbad
  refine ⟨fun hasks => .of_step ?_, fun hnot hcalm => .of_step ?_⟩
  · obtain ⟨w', hsql, hattains⟩ := hgood hasks
    rw [hc, hsql]
    refine hattains.trans ?_
    rintro _ ⟨sqlcmdstate, ep, rfl⟩
    refine .of_step (.here ⟨_, back_turn hv (by decide), hv, by decide, ?_,
      hsame⟩)
    exact ⟨⟨hst.listed.expressionlist, hst.listed.terms, hst.listed.nodup⟩,
      hst.within, hst.inValues, rfl, hasks.1.1.symm⟩
  · rw [hc]
    cases hsql : sqlPredicate s op lv rv this w with
    | none => exact strays_stopped _
    | some w' => exact hbad hnot w' hsql hcalm

section Operators

variable (hat : AtOperator s (Stands w₀ F) F w₁ w parent this op left right lv
  rv l)

include hat

/-- AND and OR, and what has been hit already. -/
theorem AtOperator.done {c : Config} (hd : step s (.searching w₁ this next
      .statement) = c)
    (hc : ∃ h, c = upTo { w with heap := h } .statement parent ∧
      IsOperand h this parent [] ∧
      Same (Term.operator this op left right).addresses w.heap h) :
    Attains (step s) (Off s) (.searching w₁ this next .statement)
      (Done .statement (Stands w₀ F)
        ((Term.operator this op left right).addresses ++ F) w.heap parent this
        [] l) := by
  obtain ⟨h, rfl, hv, hsame⟩ := hc
  refine .of_step (.here ?_)
  rw [hd]
  exact ⟨_, rfl, hv, by decide, hat.apart.kept w l h hat.lists hsame,
    hsame.mono fun b hb => List.mem_append_left _ hb⟩

theorem andor_reaches (hop : op = .and ∨ op = .or) :
    Reaches s .statement (exec s idle) (Stands w₀ F)
      ((Term.operator this op left right).addresses ++ F) w₁ w parent next this
      op lv rv l := by
  obtain ⟨c, r, ln, rn, hch⟩ := hat.ready.children hat.apart.nodup
  have hun : op.isUnary = false := by
    rcases hop with rfl | rfl <;> rfl
  have hexec : exec s idle this op lv rv l = some ([], l) := by
    rcases hop with rfl | rfl <;> rfl
  have heval : execute s op w this = some (.returned { w with
      heap := Asts.becomeOperand w.heap this c r [] } ⟨true, some parent⟩) := by
    rw [execute, hch.cell]
    dsimp only
    rw [hch.operands]
    rcases hop with rfl | rfl <;> rfl
  rw [Reaches, hexec]
  refine ⟨fun v l' hv => ?_, fun hnone => (by cases hnone)⟩
  injection hv with hpair
  injection hpair with hv hl
  subst hv hl
  obtain ⟨hv, hsame⟩ := hch.becomeOperand hun []
  refine hat.done rfl ⟨_, ?_, hv, hsame⟩
  rw [step, hat.evaluate, heval, proceed_parent]

theorem execute_truth {c r : ℕ} {ln rn : Node}
    (hch : Children w.heap parent this op left right lv rv c r ln rn)
    (hop : op = .not ∨ op = .true ∨ op = .false ∨ op = .unknown) :
    evaluate s w₁ this = some (.returned { w with
      heap := becomeUnary w.heap this r } ⟨false, none⟩) := by
  rw [hat.evaluate, execute, hch.cell]
  dsimp only
  rw [hch.operands]
  rcases hop with rfl | rfl | rfl | rfl <;> rfl

variable (idle) in
/-- The truth tests, if `nextAstNode` is their own. -/
theorem truth_reaches (hop : op = .not ∨ op = .true ∨ op = .false ∨
      op = .unknown) :
    Reaches s .statement (exec s idle) (Stands w₀ F)
      ((Term.operator this op left right).addresses ++ F) w₁ w parent
      (some this) this op lv rv l := by
  obtain ⟨c, r, ln, rn, hch⟩ := hat.ready.children hat.apart.nodup
  have hexec : exec s idle this op lv rv l = some ([], l) := by
    rcases hop with rfl | rfl | rfl | rfl <;> rfl
  obtain ⟨hv, hsame⟩ := becomeUnary_operand hch
  rw [Reaches, hexec]
  refine ⟨fun v l' hpair => .of_step (.of_step (.here ?_)),
    fun hnone => (by cases hnone)⟩
  injection hpair with hpair
  injection hpair with hval hl
  subst hval hl
  have hstep : step s (.searching w₁ this (some this) .statement) =
      .searching { w with heap := becomeUnary w.heap this r } this (some this)
        .statement := by
    rw [step, execute_truth hat hch hop]
    rfl
  rw [hstep, back_turn (w := { w with heap := becomeUnary w.heap this r }) hv
    (by decide)]
  exact ⟨_, rfl, hv, by decide, hat.apart.kept w l _ hat.lists hsame,
    hsame.mono fun b hb => List.mem_append_left _ hb⟩

theorem predicate_reaches (hun : op.isUnary = false)
    (hexecute : ∀ n o, w.heap.get this = some n → operands w.heap n = some o →
      execute s op w this = binaryPredicate s op w this n o)
    (hexec : exec s (Idle s w₀) this op lv rv l =
      execPredicate s (Idle s w₀) this op lv rv l) :
    Reaches s .statement (exec s (Idle s w₀)) (Stands w₀ F)
      ((Term.operator this op left right).addresses ++ F) w₁ w parent next this
      op lv rv l := by
  obtain ⟨c, r, ln, rn, hch⟩ := hat.ready.children hat.apart.nodup
  have hstaged : staged s op ⟨c, r, lv, rv⟩ w = hit s op lv rv l := by
    rw [staged, hit, hat.lists.inValues]
  obtain ⟨hv, hsame⟩ := hch.becomeOperand hun []
  have hbinary := hat.evaluate.trans (hexecute _ _ hch.cell hch.operands)
  rw [binaryPredicate, hstaged] at hbinary
  have hst : Stands w₀ F { w with
      heap := Asts.becomeOperand w.heap this c r [] } l :=
    hat.apart.kept w l _ hat.lists hsame
  rw [Reaches, hexec, execPredicate]
  cases hhit : hit s op lv rv l with
  | none =>
      rw [hhit] at hbinary
      exact ⟨fun v l' hv => (by cases hv), fun _ _ => strays_trapped hbinary⟩
  | some equalhit =>
      rw [hhit] at hbinary
      have heval : evaluate s w₁ this =
          if op = .eq ∧ equalhit = true then
            some (.returned { w with
              heap := Asts.becomeOperand w.heap this c r [] }
                ⟨true, some parent⟩)
          else
            (sqlPredicate s op lv rv this { w with
              heap := Asts.becomeOperand w.heap this c r [] }).map
                fun w => .returned w ⟨false, some none⟩ := hbinary
      rw [Option.bind_some]
      by_cases heq : op = .eq ∧ equalhit = true
      · rw [if_pos (.inl heq)]
        rw [if_pos heq] at heval
        refine ⟨fun v l' hpair => ?_, fun hnone => (by cases hnone)⟩
        injection hpair with hpair
        injection hpair with hval hl
        subst hval hl
        refine hat.done rfl ⟨_, ?_, hv, hsame⟩
        rw [step, heval, proceed_parent]
      · rw [if_neg heq] at heval
        obtain ⟨hgood, hbad⟩ := request_turn s op lv rv
          (.searching w₁ this next .statement) hst hv
          (hsame.mono fun b hb => List.mem_append_left F hb)
          (fun hnull => by rcases hnull with rfl | rfl <;> cases hun)
          (by rw [step, heval, proceed_request])
        by_cases hasks : Idle s w₀ ∧ Asks s op this lv rv
        · rw [if_pos (.inr hasks)]
          refine ⟨fun v l' hpair => ?_, fun hnone => (by cases hnone)⟩
          injection hpair with hpair
          injection hpair with hval hl
          subst hval hl
          exact hgood hasks
        · rw [if_neg fun h => h.elim heq hasks]
          exact ⟨fun v l' hpair => (by cases hpair), fun _ => hbad hasks⟩

theorem null_reaches (hop : op = .isnull ∨ op = .isnotnull) :
    Reaches s .statement (exec s (Idle s w₀)) (Stands w₀ F)
      ((Term.operator this op left right).addresses ++ F) w₁ w parent next this
      op lv rv l := by
  obtain ⟨c, r, ln, rn, hch⟩ := hat.ready.children hat.apart.nodup
  have hun : op.isUnary = true := by
    rcases hop with rfl | rfl <;> rfl
  obtain rfl := hat.ready.left.unary hun
  have hstaged : staged s op ⟨c, r, [], rv⟩ w = hit s op [] rv l := by
    rw [staged, hit, hat.lists.inValues]
  obtain ⟨hv, hsame⟩ := becomeUnary_operand hch
  have hexecute : execute s op w this =
      nullPredicate s op w this ⟨c, r, [], rv⟩ := by
    rw [execute, hch.cell]
    dsimp only
    rw [hch.operands]
    rcases hop with rfl | rfl <;> rfl
  have hnull := hat.evaluate.trans hexecute
  rw [nullPredicate, hstaged] at hnull
  have hst : Stands w₀ F { w with heap := becomeUnary w.heap this r } l :=
    hat.apart.kept w l _ hat.lists hsame
  have hexec : exec s (Idle s w₀) this op [] rv l =
      execNull s (Idle s w₀) this op rv l := by
    rcases hop with rfl | rfl <;> rfl
  rw [Reaches, hexec, execNull]
  cases hhit : hit s op [] rv l with
  | none =>
      rw [hhit] at hnull
      exact ⟨fun v l' hv => (by cases hv), fun _ _ => strays_trapped hnull⟩
  | some equalhit =>
      rw [hhit] at hnull
      have heval : evaluate s w₁ this =
          (sqlPredicate s op rv rv this { w with
            heap := becomeUnary w.heap this r }).map
              fun w => .returned w ⟨false, some none⟩ := hnull
      rw [Option.bind_some]
      obtain ⟨hgood, hbad⟩ := request_turn s op rv rv
        (.searching w₁ this next .statement) hst hv
        (hsame.mono fun b hb => List.mem_append_left F hb) (fun _ => rfl)
        (by rw [step, heval, proceed_request])
      by_cases hasks : Idle s w₀ ∧ Asks s op this rv rv
      · rw [if_pos hasks]
        refine ⟨fun v l' hpair => ?_, fun hnone => (by cases hnone)⟩
        injection hpair with hpair
        injection hpair with hval hl
        subst hval hl
        exact hgood hasks
      · rw [if_neg hasks]
        exact ⟨fun v l' hpair => (by cases hpair), fun _ => hbad hasks⟩

/-- The state behind the list of an IN. -/
theorem in_resolved {c : Config} {w' : State} {r : ℕ} {ln rn : Node} {b : ℕ}
    {values : List FieldValue}
    (hch : Children w.heap parent this op left right lv rv b r ln rn)
    (hw' : w' = { w with
      heap := w.heap.modify this fun n => { n with isoperator := false } })
    (hc : Resolved w' this l.items values c) :
    (Idle s w₀ ∧ Asks s op this rv rv → Attains (step s) (Off s) c
      (Done .statement (Stands w₀ F)
        ((Term.operator this op left right).addresses ++ F) w.heap parent this
        [] ⟨[], l.inValues ++ values⟩)) ∧
    (¬ (Idle s w₀ ∧ Asks s op this rv rv) → Calm s →
      Strays (step s) Busy c) := by
  subst hw'
  obtain ⟨h, rfl, hsame⟩ := hc
  obtain ⟨hne, hrmem⟩ := hch.rightmost
  have hout : ∀ b ∈ (Term.operator this op left right).addresses,
      b ∉ l.items.flatMap Term.addresses := fun b hb hin =>
    hat.apart.elsewhere b hb (hat.lists.within b hin)
  have hthis : h.get this = some { Term.cell parent this op left right with
      isoperator := false } := by
    rw [hsame this (hout this List.mem_cons_self)]
    change (w.heap.modify this _).get this = _
    rw [Heap.get_modify_self, hch.cell]
    rfl
  have hr : h.get r = some rn := by
    rw [hsame r (hout r (mem_right hrmem))]
    change (w.heap.modify this _).get r = _
    rw [Heap.get_modify_of_ne hne.symm, hch.rightnode]
  have hv : IsOperand (becomeUnary h this r) this parent [] := by
    refine ⟨{ Term.cell parent this op left right with
      isoperator := false
      rightchild := none }, ?_, rfl, rfl, rfl⟩
    rw [becomeUnary, Heap.get_free_of_ne hne, Heap.get_modify_self, hthis]
    rfl
  have hsame' : Same ((Term.operator this op left right).addresses ++ F) w.heap
      (becomeUnary h this r) := by
    intro b hb
    rw [List.mem_append, not_or] at hb
    have hbthis : b ≠ this := fun heq => hb.1 (heq ▸ List.mem_cons_self)
    have hbr : b ≠ r := fun heq => hb.1 (heq ▸ mem_right hrmem)
    rw [becomeUnary, Heap.get_free_of_ne hbr, Heap.get_modify_of_ne hbthis,
      hsame b fun hin => hb.2 (hat.lists.within b hin)]
    exact Heap.get_modify_of_ne hbthis
  refine request_turn s op rv rv _ (w := { w with
    heap := becomeUnary h this r
    expressionlist := []
    inValues := w.inValues ++ values }) ?_ hv hsame' (fun _ => rfl) ?_
  · refine ⟨⟨rfl, fun i hi => (by cases hi), List.nodup_nil⟩,
      fun b hb => (by cases hb), ?_, hat.lists.inflight, hat.lists.pendingcmd⟩
    rw [hat.lists.inValues]
  · have hend : endIn s { w with
        heap := h
        expressionlist := []
        inValues := w.inValues ++ values } this =
        sqlPredicate s op rv rv this { w with
          heap := becomeUnary h this r
          expressionlist := []
          inValues := w.inValues ++ values } := by
      have htype : (Term.cell parent this op left right).operatortype =
          some op := rfl
      rw [endIn]
      dsimp only
      rw [hthis]
      dsimp only
      rw [hch.rightchild, htype]
      dsimp only
      rw [hr, ← hch.rightoperand]
    rw [step]
    dsimp only
    rw [hend]
    cases sqlPredicate s op rv rv this { w with
      heap := becomeUnary h this r
      expressionlist := []
      inValues := w.inValues ++ values } <;> rfl

/-- The state in which the list of an IN is gone over. -/
theorem in_listed {w' : State} {b r : ℕ} {ln rn : Node} {f : Field}
    (hch : Children w.heap parent this op left right lv rv b r ln rn)
    (hf : s.fields[(integerOf rv).toNat]? = some f)
    (hw' : w' = { w with
      heap := w.heap.modify this fun n => { n with isoperator := false } }) :
    Stands w₀ F w' l ∧ InField s w'.heap this r f ∧
      ∀ b ∈ l.items.flatMap Term.addresses, b ≠ this ∧ b ≠ r := by
  subst hw'
  obtain ⟨hne, hrmem⟩ := hch.rightmost
  have hsame : Same [this] w.heap (w.heap.modify this fun n =>
      { n with isoperator := false }) := fun b hb =>
    Heap.get_modify_of_ne fun heq => hb (heq ▸ List.mem_singleton_self _)
  refine ⟨hat.apart.kept w l _ hat.lists (hsame.mono fun b hb => ?_),
    ⟨⟨{ Term.cell parent this op left right with isoperator := false }, ?_,
      hch.rightchild⟩, rn, ?_, by rw [hch.rightoperand, hf]⟩, fun b hb => ?_⟩
  · rw [List.mem_singleton.mp hb]
    exact List.mem_cons_self
  · change (w.heap.modify this _).get this = _
    rw [Heap.get_modify_self, hch.cell]
    rfl
  · change (w.heap.modify this _).get r = _
    rw [Heap.get_modify_of_ne hne.symm, hch.rightnode]
  · have hbF := hat.lists.within b hb
    refine ⟨fun heq => ?_, fun heq => ?_⟩
    · exact hat.apart.elsewhere this List.mem_cons_self (heq ▸ hbF)
    · exact hat.apart.elsewhere r (mem_right hrmem) (heq ▸ hbF)

theorem in_reaches (hop : op = .in ∨ op = .notin) :
    Reaches s .statement (exec s (Idle s w₀)) (Stands w₀ F)
      ((Term.operator this op left right).addresses ++ F) w₁ w parent next this
      op lv rv l := by
  obtain ⟨c, r, ln, rn, hch⟩ := hat.ready.children hat.apart.nodup
  have hun : op.isUnary = true := by
    rcases hop with rfl | rfl <;> rfl
  obtain rfl := hat.ready.left.unary hun
  have hstaged : staged s op ⟨c, r, [], rv⟩ w = hit s op [] rv l := by
    rw [staged, hit, hat.lists.inValues]
  obtain ⟨w', hw'⟩ : ∃ w', w' = { w with
      heap := w.heap.modify this fun n => { n with isoperator := false } } :=
    ⟨_, rfl⟩
  have hexecute : execute s op w this =
      inPredicate s op w this ⟨c, r, [], rv⟩ := by
    rw [execute, hch.cell]
    dsimp only
    rw [hch.operands]
    rcases hop with rfl | rfl <;> rfl
  have hin := hat.evaluate.trans hexecute
  rw [inPredicate, hstaged] at hin
  have hexec : exec s (Idle s w₀) this op [] rv l =
      execIn s (Idle s w₀) this op rv l := by
    rcases hop with rfl | rfl <;> rfl
  rw [Reaches, hexec, execIn]
  cases hhit : hit s op [] rv l with
  | none =>
      rw [hhit] at hin
      exact ⟨fun v l' hv => (by cases hv), fun _ _ => strays_trapped hin⟩
  | some equalhit =>
      rw [hhit] at hin
      have heval : evaluate s w₁ this =
          (s.fields[(integerOf rv).toNat]?).map fun _ => .inlist w' := by
        rw [hw']
        exact hin
      rw [Option.bind_some]
      cases hf : s.fields[(integerOf rv).toNat]? with
      | none =>
          rw [hf] at heval
          exact ⟨fun v l' hv => (by cases hv), fun _ _ => strays_trapped heval⟩
      | some f =>
          rw [hf] at heval
          rw [Option.bind_some]
          have hdown : step s (.searching w₁ this next .statement) =
              .resolving w' this := by
            rw [step, heval]
            rfl
          obtain ⟨hst, hfield, hapart⟩ := in_listed hat hch hf hw'
          obtain ⟨hgood, hbad⟩ := list_turn (s := s) l.items w' hst.listed
            hfield hapart
          cases hvalues : itemValues s f l.items with
          | none =>
              refine ⟨fun v l' hv => (by cases hv), fun _ hcalm => .of_step ?_⟩
              rw [hdown]
              exact hbad hvalues hcalm
          | some values =>
              rw [Option.bind_some]
              by_cases hasks : Idle s w₀ ∧ Asks s op this rv rv
              · rw [if_pos hasks]
                refine ⟨fun v l' hpair => .of_step ?_,
                  fun hnone => (by cases hnone)⟩
                injection hpair with hpair
                injection hpair with hval hl
                subst hval hl
                rw [hdown]
                exact (hgood values hvalues).trans fun d hd =>
                  (in_resolved hat hch hw' hd).1 hasks
              · rw [if_neg hasks]
                refine ⟨fun v l' hpair => (by cases hpair), fun _ hcalm =>
                  .of_step ?_⟩
                rw [hdown]
                exact (hgood values hvalues).strays (fun d hd => hd.2 hcalm)
                  fun d hd => (in_resolved hat hch hw' hd).2 hasks hcalm

/-- What reads the number of a subquery from an operator. -/
theorem exists_reaches (hop : op = .exists ∨ op = .unique) :
    Reaches s .statement (exec s idle) (Stands w₀ F)
      ((Term.operator this op left right).addresses ++ F) w₁ w parent next this
      op lv rv l := by
  obtain ⟨c, r, ln, rn, hch⟩ := hat.ready.children hat.apart.nodup
  have hexec : exec s idle this op lv rv l = none := by
    rcases hop with rfl | rfl <;> rfl
  rw [Reaches, hexec]
  refine ⟨fun v l' hv => (by cases hv), fun _ _ => strays_trapped ?_⟩
  rw [hat.evaluate, execute, hch.cell]
  dsimp only
  rw [hch.operands]
  rcases hop with rfl | rfl <;> rfl

/-- An operator that stays one goes to its parent. -/
theorem evaluate_anomaly (hop : op = .regex ∨ op = .null) :
    evaluate s w₁ this = some (.returned w ⟨true, some parent⟩) := by
  obtain ⟨c, r, ln, rn, hch⟩ := hat.ready.children hat.apart.nodup
  rw [hat.evaluate, execute, hch.cell]
  dsimp only
  rw [hch.operands]
  rcases hop with rfl | rfl <;> rfl

end Operators

/-- Down to an operator that is the next one. -/
theorem step_below {foot : List ℕ} {p : ℕ} (hb : Below foot w.heap p a)
    (hn : w.heap.get a = some n) (hop : n.isoperator = true) :
    step s (.searching w p next caller) =
      .searching w a (some a) caller := by
  obtain ⟨-, parent, op, left, right, hcell, hnext⟩ := hb
  rcases hnext with ⟨hun, hroot⟩ | ⟨hroot, lv, hl, -⟩
  · rw [step, evaluate_left hcell hun hroot hn hop]
    rfl
  · rw [step, evaluate_right hcell (look_again hcell hl) hroot hn hop]
    rfl

/-- What is not implemented goes up, and down again, for ever. -/
theorem anomaly_reaches {p : ℕ} (hop : op = .regex ∨ op = .null)
    (hat : AtOperator s (Stands w₀ F) F w₁ w (some p) this op left right lv rv
      l)
    (hbelow : Below ((Term.operator this op left right).addresses ++ F) w.heap p
      this) :
    Reaches s .statement (exec s idle) (Stands w₀ F)
      ((Term.operator this op left right).addresses ++ F) w₁ w (some p) next
      this op lv rv l := by
  have hexec : exec s idle this op lv rv l = none := by
    rcases hop with rfl | rfl <;> rfl
  rw [Reaches, hexec]
  refine ⟨fun v l' hv => (by cases hv), fun _ _ => .of_step ?_⟩
  have hagain : AtOperator s (Stands w₀ F) F w w (some p) this op left right lv
      rv l := ⟨hat.apart, evaluate_ready hat.ready, hat.ready, hat.lists⟩
  have hup : step s (.searching w₁ this next .statement) =
      .searching w p (some p) .statement := by
    rw [step, evaluate_anomaly hat hop]
    rfl
  have hdown : step s (.searching w p (some p) .statement) =
      .searching w this (some this) .statement :=
    step_below hbelow hat.ready.cell rfl
  have hup' : step s (.searching w this (some this) .statement) =
      .searching w p (some p) .statement := by
    rw [step, evaluate_anomaly hagain hop]
    rfl
  rw [hup]
  refine Strays.of_closed (P := fun c =>
    c = .searching w p (some p) .statement ∨
      c = .searching w this (some this) .statement) (.inl rfl) ?_ ?_
  · rintro _ (rfl | rfl)
    · exact .inr hdown
    · exact .inl hup'
  · rintro _ (rfl | rfl) <;> exact .inl trivial

/-! ## All operators -/

theorem conditions_apply (op : Operatortype) :
    Applies s .statement (exec s (Idle s w₀)) (Stands w₀ F) F op := by
  intro p this left right w₁ w lv rv l hat hbelow
  cases op with
  | concatenation | addition | subtraction | multiplication | division
  | negation | betweenand =>
      exact values_apply rfl (fun _ _ _ _ => rfl) p this left right w₁ w lv rv l
        hat hbelow
  | and => exact andor_reaches hat (.inl rfl)
  | or => exact andor_reaches hat (.inr rfl)
  | not | true | false | unknown => exact truth_reaches _ hat (by simp)
  | eq | ne | lt | gt | lte | gte | between | notbetween | like | notlike =>
      refine predicate_reaches hat rfl (fun n o hn ho => ?_) rfl
      rw [execute, hn]
      dsimp only
      rw [ho]
  | isnull => exact null_reaches hat (.inl rfl)
  | isnotnull => exact null_reaches hat (.inr rfl)
  | «in» => exact in_reaches hat (.inl rfl)
  | notin => exact in_reaches hat (.inr rfl)
  | «exists» => exact exists_reaches hat (.inl rfl)
  | unique => exact exists_reaches hat (.inr rfl)
  | regex => exact anomaly_reaches (.inl rfl) hat hbelow
  | null => exact anomaly_reaches (.inr rfl) hat hbelow

/-! ## At the root -/

/-- To the end of the search, or nowhere. -/
def Ends (s : Surroundings) (c : Config) (sound : Prop) : Prop :=
  (sound → Attains (step s) (Off s) c (· = .continued)) ∧
    (¬ sound → Calm s → Strays (step s) Busy c)

theorem Ends.of_step {c : Config} {sound : Prop} (h : Ends s (step s c) sound) :
    Ends s c sound :=
  ⟨fun hs => .of_step (h.1 hs), fun hn hcalm => .of_step (h.2 hn hcalm)⟩

theorem Ends.congr {c : Config} {sound sound' : Prop} (h : Ends s c sound)
    (hiff : sound' ↔ sound) : Ends s c sound' := by
  rwa [propext hiff]

theorem Reaches.ends {exec : Exec} {R : State → Lists → Prop} {foot : List ℕ}
    (h : Reaches s .statement exec R foot w₁ w none next this op lv rv l) :
    Ends s (.searching w₁ this next .statement)
      ((exec this op lv rv l).isSome = true) := by
  refine ⟨fun hsome => ?_, fun hnone => h.2 ?_⟩
  · obtain ⟨⟨v, l'⟩, hexec⟩ := Option.isSome_iff_exists.mp hsome
    refine (h.1 v l' hexec).mono ?_
    rintro _ ⟨w', rfl, -⟩
    rfl
  · exact Option.not_isSome_iff_eq_none.mp hnone

section Root

variable (hat : AtOperator s (Stands w₀ F) F w₁ w none this op left right lv
  rv l)

include hat

theorem values_end (hop : onValues op = true)
    (hnext : next = if left.isOperator ∨ right.isOperator then some this
      else none) :
    Ends s (.searching w₁ this next .statement)
      ((exec s (Idle s w₀) this op lv rv l).isSome = true ∨
        op = .concatenation ∧ left.isOperator = false ∧
          right.isOperator = false) := by
  obtain ⟨result, hresult, hperf⟩ := execute_values (s := s) hop hat.ready
    hat.apart.nodup
  have hexec : exec s (Idle s w₀) this op lv rv l =
      (applied s.ld op lv rv).toOption.map (·, l) := by
    cases op with
    | concatenation | addition | subtraction | multiplication | division
    | negation | betweenand => rfl
    | _ => cases hop
  rw [hexec, Option.isSome_map]
  cases happ : applied s.ld op lv rv with
  | value v =>
      rw [happ] at hperf
      obtain ⟨h', rfl, hv, hsame⟩ := hperf
      refine ⟨fun _ => .of_step (.here ?_), fun hn => absurd (.inl rfl) hn⟩
      rw [step, hat.evaluate, hresult]
      rfl
  | mismatch =>
      rw [happ] at hperf
      obtain ⟨h', lv', rv', rfl, hready', hmis', -⟩ := hperf
      refine .of_step ?_
      rw [step, hat.evaluate, hresult, hnext]
      by_cases hchild : left.isOperator = true ∨ right.isOperator = true
      · rw [if_pos hchild]
        refine ⟨fun hsound => ?_, fun _ _ => strays_mismatch
          (w := { w with heap := h' }) hop hat.apart.nodup hready' hmis'⟩
        rcases hsound with hsome | ⟨-, hl, hr⟩
        · cases hsome
        · rw [hl, hr] at hchild
          simp at hchild
      · rw [if_neg hchild]
        rw [not_or, Bool.not_eq_true, Bool.not_eq_true] at hchild
        by_cases hcat : op = .concatenation
        · refine ⟨fun _ => .here ?_, fun hn => absurd (.inr ⟨hcat, hchild⟩) hn⟩
          rw [decide_eq_true hcat]
          rfl
        · refine ⟨fun hsound => ?_, fun _ _ => ?_⟩
          · rcases hsound with hsome | ⟨hc, -⟩
            · cases hsome
            · exact absurd hc hcat
          · rw [decide_eq_false hcat]
            exact strays_left (w := { w with heap := h' }) hat.lists.inflight
  | trap =>
      rw [happ] at hperf
      refine ⟨fun hsound => ?_, fun _ _ => strays_trapped ?_⟩
      · rcases hsound with hsome | ⟨rfl, -⟩
        · cases hsome
        · rw [applied] at happ
          split at happ <;> cases happ
      · rw [hat.evaluate, hresult, hperf]
        rfl

theorem truth_end (hop : op = .not ∨ op = .true ∨ op = .false ∨ op = .unknown)
    (hmissing : left = .missing)
    (hnext : next = if left.isOperator ∨ right.isOperator then some this
      else none) :
    Ends s (.searching w₁ this next .statement) (right.isOperator = true) := by
  subst hmissing
  by_cases hright : right.isOperator = true
  · have hself : next = some this := by
      rw [hnext, if_pos (.inr hright)]
    subst hself
    refine (truth_reaches (Idle s w₀) hat hop).ends.congr ?_
    rcases hop with rfl | rfl | rfl | rfl <;> simp [hright, exec]
  · refine ⟨fun h => absurd h hright, fun _ _ => .of_step ?_⟩
    obtain ⟨c, r, ln, rn, hch⟩ := hat.ready.children hat.apart.nodup
    have hnone : next = none := by
      rw [hnext, if_neg]
      rintro (h | h)
      · cases h
      · exact hright h
    rw [step, execute_truth hat hch hop, hnone]
    exact strays_left (w := { w with heap := becomeUnary w.heap this r })
      hat.lists.inflight

/-- The operator at the root. -/
theorem root_ends (hmissing : op.isUnary = true → left = .missing)
    (hnext : next = if left.isOperator ∨ right.isOperator then some this
      else none) :
    Ends s (.searching w₁ this next .statement)
      (AtRoot s (Idle s w₀) this op left right lv rv l) := by
  cases op with
  | concatenation =>
      refine (values_end hat rfl hnext).congr (or_congr Iff.rfl ?_)
      rw [and_iff_right rfl]
  | addition | subtraction | multiplication | division | negation
  | betweenand =>
      refine (values_end hat rfl hnext).congr ⟨.inl, fun h => ?_⟩
      exact h.resolve_right fun h => (by cases h.1)
  | and => exact (andor_reaches hat (.inl rfl)).ends
  | or => exact (andor_reaches hat (.inr rfl)).ends
  | not | true | false | unknown =>
      exact truth_end hat (by simp) (hmissing rfl) hnext
  | eq | ne | lt | gt | lte | gte | between | notbetween | like | notlike =>
      refine (predicate_reaches hat rfl (fun n o hn ho => ?_) rfl).ends
      rw [execute, hn]
      dsimp only
      rw [ho]
  | isnull => exact (null_reaches hat (.inl rfl)).ends
  | isnotnull => exact (null_reaches hat (.inr rfl)).ends
  | «in» => exact (in_reaches hat (.inl rfl)).ends
  | notin => exact (in_reaches hat (.inr rfl)).ends
  | «exists» => exact (exists_reaches hat (.inl rfl)).ends
  | unique => exact (exists_reaches hat (.inr rfl)).ends
  | regex =>
      refine ⟨fun _ => .of_step (.here ?_), fun hn => absurd trivial hn⟩
      rw [step, evaluate_anomaly hat (.inl rfl)]
      rfl
  | null =>
      refine ⟨fun _ => .of_step (.here ?_), fun hn => absurd trivial hn⟩
      rw [step, evaluate_anomaly hat (.inr rfl)]
      rfl

end Root

theorem uses_all (t : Term) : t.Uses fun _ => True := by
  induction t with
  | missing => trivial
  | operand b v => trivial
  | operator this op left right ihl ihr => exact ⟨trivial, ihl, ihr⟩

/-- A search comes to its end, or strays. -/
theorem condition_ends (hprep : Prepared w t l) (ha : t.root = some a) :
    Ends s (.searching w a none .statement) (Sound s (Idle s w) l t) := by
  obtain ⟨hlaid, hlist, hitems, hapart, hvalues, hinflight⟩ := hprep
  obtain ⟨hnodup, hnodups, hdisj⟩ := List.nodup_append'.mp hapart
  cases t with
  | missing => cases ha
  | operand b v =>
      injection ha with ha
      subst ha
      have hleaf := evaluate_leaf (s := s) hlaid.operand
      change Ends s _ ((supplied s.parameters v).isSome = true)
      split at hleaf
      · next hsup =>
          rw [hsup]
          exact ⟨fun h => (by cases h), fun _ _ => strays_trapped hleaf⟩
      · next v' hsup =>
          obtain ⟨h', heval, -⟩ := hleaf
          rw [hsup]
          refine ⟨fun _ => .of_step (.here ?_), fun hn => absurd rfl hn⟩
          rw [step, heval]
          rfl
  | operator this op left right =>
      injection ha with ha
      subst ha
      have hst : Stands w l.addresses w l :=
        ⟨⟨hlist, hitems, hnodups⟩, fun _ hb => hb, hvalues, hinflight, rfl⟩
      have hF : ∀ b ∈ (Term.operator this op left right).addresses,
          b ∉ l.addresses := fun b hb => hdisj hb
      have hnd := List.nodup_append.mp (List.nodup_cons.mp hnodup).2
      have hwl : Walks s .statement (exec s (Idle s w)) (Stands w l.addresses)
          l.addresses left :=
        walk (fun op _ => conditions_apply op) left (uses_all left) hnd.1
          (fun b hb => hF b (mem_left hb))
          (Stands.kept fun b hb => hF b (mem_left hb))
      have hwr : Walks s .statement (exec s (Idle s w)) (Stands w l.addresses)
          l.addresses right :=
        walk (fun op _ => conditions_apply op) right (uses_all right) hnd.2.1
          (fun b hb => hF b (mem_right hb))
          (Stands.kept fun b hb => hF b (mem_right hb))
      have hap : Apart (Stands w l.addresses) l.addresses this op left right :=
        ⟨hnodup, hF, Stands.kept hF⟩
      obtain ⟨hgood, hbad⟩ := operands_turn none hap hlaid hst hwl hwr
      rw [afterBoth_none] at hgood
      refine ⟨fun hsound => ?_, fun hnot hcalm => ?_⟩
      · obtain ⟨lv, rv, l', hboth, hroot⟩ := hsound
        refine (hgood lv rv l' hboth).trans ?_
        rintro _ ⟨w₁, w₂, rfl, heval, hready, hR, -⟩
        exact (root_ends ⟨hap, heval, hready, hR⟩ hlaid.operator.2.1
          rfl).1 hroot
      · cases hboth : both s.parameters (exec s (Idle s w)) op left right l with
        | none => exact hbad hboth hcalm
        | some q =>
            obtain ⟨lv, rv, l'⟩ := q
            refine (hgood lv rv l' hboth).strays (fun d hd => hd.2 hcalm) ?_
            rintro _ ⟨w₁, w₂, rfl, heval, hready, hR, -⟩
            exact (root_ends ⟨hap, heval, hready, hR⟩ hlaid.operator.2.1 rfl).2
              (fun hroot => hnot ⟨lv, rv, l', hboth, hroot⟩) hcalm

/-! ## What is to hold -/

/-- On the way to a state that is stayed in nothing is left standing. -/
theorem neverStalls_of {c d : Config} {k : ℕ} (hd : step s d = d)
    (hk : (step s)^[k] c = d) (hcalling : ¬ d.Calling)
    (hstopped : ∀ why, d ≠ .stopped why) : NeverStalls s c := by
  refine ⟨fun m => ⟨k, ?_⟩, fun m why hm => ?_⟩
  · rw [Nat.add_comm, iterate_of_fixed hd hk]
    exact hcalling
  · exact hstopped why (fixed_unique hd rfl hk hm)

theorem neverStalls_of_attains {c : Config}
    (h : Attains (step s) (Off s) c (· = .continued)) : NeverStalls s c := by
  obtain ⟨k, hk | ⟨hk, -⟩⟩ := h
  · exact neverStalls_of rfl hk (fun h => h) fun why h => by cases h
  · exact neverStalls_of rfl hk (fun h => h) fun why h => by cases h

theorem stalls_of_strays {c : Config} (h : Strays (step s) Busy c) :
    ¬ NeverStalls s c := by
  rintro ⟨hreturns, hresumed⟩
  obtain ⟨k, hk⟩ := h
  obtain ⟨n, hn⟩ := hreturns k
  rcases hk n with hcalling | ⟨why, hwhy⟩
  · exact hn hcalling
  · exact hresumed (k + n) why hwhy

/-- The locks that the rows are under make no difference to an operator. -/
theorem exec_returnRows (returnRows : ℕ → ℕ → List Queues.Locktype)
    (idle : Prop) [Decidable idle] :
    exec { s with returnRows := returnRows } idle = exec s idle := by
  funext this op left right l
  cases op <;> rfl

theorem left_returnRows (returnRows : ℕ → ℕ → List Queues.Locktype) :
    t.left { s with returnRows := returnRows } = t.left s := by
  cases t <;> rfl

theorem sound_returnRows (returnRows : ℕ → ℕ → List Queues.Locktype)
    (idle : Prop) [Decidable idle] :
    Sound { s with returnRows := returnRows } idle l t ↔ Sound s idle l t := by
  cases t with
  | missing => rfl
  | operand b v => rfl
  | operator this op left right =>
      rw [Sound, Sound, exec_returnRows]
      simp only [AtRoot, exec_returnRows]
/-- The table has a unique integer, and there are no rows. -/
def oneField : Surroundings where
  parameters := []
  supplied := fun _ hv => absurd hv (List.not_mem_nil)
  ld := ⟨fun a _ => a, fun a _ => a, fun a _ => a, fun a _ => a, fun _ => 0⟩
  fields := [⟨.int, 8, .unique⟩]
  tableid := 1
  stagedRows := []
  numpartitions := 1
  lockpendingcount := 0
  indexHits := fun _ _ => []
  returnRows := fun _ _ => []

/-- A search is about to begin. -/
def searchOf (t : Term) : State where
  heap := Heap.ofList (t.cells none)
  expressionlist := []
  inValues := []
  pendingcmd := false
  sqlcmdstate := {}
  tacmdentrypoint := .one
  inflight := 0

theorem cells_addresses (t : Term) : ∀ parent,
    (t.cells parent).map Prod.fst = t.addresses := by
  induction t with
  | missing => exact fun _ => rfl
  | operand b v => exact fun _ => rfl
  | operator this op left right ihl ihr =>
      intro parent
      rw [Term.cells, List.map_cons, List.map_append, ihl, ihr]
      rfl

theorem prepared_searchOf (harity : t.Arity) (hnodup : t.addresses.Nodup) :
    Prepared (searchOf t) t ⟨[], []⟩ where
  laid := ⟨fun c hc => Heap.get_ofList (by rwa [cells_addresses]) hc, harity⟩
  expressionlist := rfl
  items := fun i hi => absurd hi (List.not_mem_nil)
  apart := by simpa [Lists.addresses] using hnodup
  inValues := rfl
  inflight := rfl

/-- The field is equal to 1. -/
def fieldIsOne : Term :=
  .operator 0 .eq (.operand 1 (Asts.fieldidOperand 0))
    (.operand 2 (integerOperand 1))

/-- One is equal to 1. -/
def oneIsOne : Term :=
  .operator 0 .eq (.operand 1 (integerOperand 1))
    (.operand 2 (integerOperand 1))

/-- The field is equal to a string plus 1. -/
def fieldIsSum : Term :=
  .operator 0 .eq (.operand 1 (Asts.fieldidOperand 0))
    (.operator 2 .addition (.operand 3 [operandString])
      (.operand 4 (integerOperand 1)))

end Infinisql.Conditions
