import Infinisql.Proofs.Parsing

/-!
# What no statement is compiled to

`consumeInobject` looks for `TYPE_SUBQUERY`, which no rule pushes: the list of
an IN is never a subquery's. And the number of a query is packed into an
operand only by the loop of `consumeExpression`, which an assignment that is
nothing but a subquery does not come to. Both are invariants of the walk over
the stack, whatever is on it, `sane_eatLoop`; and the rules push no other items
than those they allow for, `Stmt.plain`.
-/

namespace Infinisql.Larx

open Infinisql.Ref (Bytes FieldInput operandType)
open Infinisql.Asts (Operatortype operandSubquery operandIdentifier)

variable {fuel columns : ℕ} {l l' : Larxer} {stack : Stack} {q : Query}
  {t : Tree} {expression : Consume} {item : StackMember} {f : Query → Query}

/-! ## The invariant -/

/-- The items that the rules push: no `TYPE_SUBQUERY`, and for a subquery an
operand of one byte. -/
def StackMember.Plain : StackMember → Prop
  | .typeSubquery => False
  | .typeOperand v => operandType v = operandSubquery → v.length = 1
  | _ => True

/-- Not an operand with the number of a query. -/
def Tree.Short (t : Tree) : Prop :=
  ∀ v, t = .operand v → operandType v = operandSubquery → v.length = 1

structure Query.Sane (q : Query) : Prop where
  issubquery : q.inobject.issubquery = false
  assignments : ∀ a ∈ q.assignments, a.2.Short

structure Larxer.Sane (l : Larxer) : Prop where
  stack : ∀ item ∈ l.parsedStack, item.Plain
  queries : ∀ q ∈ l.queries, q.Sane

theorem mem_modify : ∀ {qs : List Query} {i : ℕ}, q ∈ qs.modify i f →
    q ∈ qs ∨ ∃ p ∈ qs, q = f p
  | [], i, h => by
      cases i <;> exact .inl h
  | p :: qs, 0, h => by
      rcases List.mem_cons.mp h with rfl | h
      · exact .inr ⟨p, List.mem_cons_self, rfl⟩
      · exact .inl (List.mem_cons_of_mem _ h)
  | p :: qs, i + 1, h => by
      rw [List.modify_succ_cons] at h
      rcases List.mem_cons.mp h with rfl | h
      · exact .inl List.mem_cons_self
      · rcases mem_modify h with h | ⟨r, hr, rfl⟩
        · exact .inl (List.mem_cons_of_mem _ h)
        · exact .inr ⟨r, List.mem_cons_of_mem _ hr, rfl⟩

theorem Larxer.Sane.modify (h : l.Sane) (hf : ∀ q, q.Sane → (f q).Sane) :
    (l.modify f).Sane := by
  refine ⟨h.stack, fun q hq => ?_⟩
  rcases mem_modify hq with hq | ⟨p, hp, rfl⟩
  · exact h.queries q hq
  · exact hf p (h.queries p hp)

theorem Larxer.Sane.pop {cur : ℕ} {qs : List Query}
    (h : Larxer.Sane ⟨item :: stack, qs, cur⟩) :
    Larxer.Sane ⟨stack, qs, cur⟩ :=
  ⟨fun i hi => h.stack i (List.mem_cons_of_mem _ hi), h.queries⟩

theorem Larxer.Sane.top {cur : ℕ} {qs : List Query}
    (h : Larxer.Sane ⟨item :: stack, qs, cur⟩) : item.Plain :=
  h.stack item List.mem_cons_self

theorem Larxer.Sane.suffix {cur cur' : ℕ} {stack' : Stack} {qs : List Query}
    (h : Larxer.Sane ⟨stack, qs, cur⟩) (hs : stack' <:+ stack) :
    Larxer.Sane ⟨stack', qs, cur'⟩ :=
  ⟨fun i hi => h.stack i (hs.subset hi), h.queries⟩

theorem short_operator {op : Operatortype} {r s : Tree} :
    (Tree.operator op r s).Short := fun _ h => by cases h

theorem short_null : Tree.null.Short := fun _ h => by cases h

/-- What `consumeExpression` is to keep. -/
def KeepsSane (expression : Consume) : Prop :=
  ∀ l t l', l.Sane → expression l = some (t, l') → l'.Sane ∧ t.Short

theorem sane_consumeFrom (h : l.Sane) : (consumeFrom l).Sane := by
  obtain ⟨stack, qs, cur⟩ := l
  unfold consumeFrom
  dsimp only
  split
  · exact h
  · exact h.pop.modify fun q hq => ⟨hq.1, hq.2⟩
  · exact h.pop

theorem columnsLoop_suffix : ∀ (n : ℕ) (stack : Stack),
    (columnsLoop n stack).2 <:+ stack
  | 0, stack => List.suffix_rfl
  | n + 1, [] => List.suffix_rfl
  | n + 1, item :: stack => by
      have ih := columnsLoop_suffix n stack
      cases item <;> exact ih.trans (List.suffix_cons _ _)

theorem groupbyLoop_suffix : ∀ stack : Stack,
    (groupbyLoop stack).2 <:+ stack
  | [] => List.suffix_rfl
  | item :: stack => by
      cases item with
      | typeOperand v =>
          have ih := groupbyLoop_suffix stack
          rw [groupbyLoop]
          split
          · exact ih.trans (List.suffix_cons _ _)
          · exact List.suffix_cons _ _
      | _ => exact List.suffix_rfl

theorem orderbyLoop_suffix : ∀ {stack : Stack}
    {items : List (Bool × Bytes)} {rest : Stack},
    orderbyLoop stack = some (items, rest) → rest <:+ stack
  | [], _, _, h => by cases h
  | [item], _, _, h => by
      cases item with
      | typeSortspecification => cases h
      | _ =>
          injection h with h
          injection h with _ h
          exact h ▸ List.suffix_rfl
  | [item, item2], _, _, h => by
      cases item with
      | typeSortspecification => cases h
      | _ =>
          injection h with h
          injection h with _ h
          exact h ▸ List.suffix_rfl
  | item :: item2 :: item3 :: stack, items, rest, h => by
      cases item with
      | typeSortspecification =>
          rw [orderbyLoop, Option.map_eq_some_iff] at h
          obtain ⟨⟨items', rest'⟩, h, heq⟩ := h
          injection heq with _ heq
          subst heq
          exact (orderbyLoop_suffix h).trans
            ((List.suffix_cons _ _).trans ((List.suffix_cons _ _).trans
              (List.suffix_cons _ _)))
      | _ =>
          injection h with h
          injection h with _ h
          exact h ▸ List.suffix_rfl

theorem sane_consumeGroupby (h : l.Sane) : (consumeGroupby l).Sane :=
  Larxer.Sane.modify (h.suffix (groupbyLoop_suffix _)) fun _ hq => ⟨hq.1, hq.2⟩

theorem sane_consumeOrderby (h : l.Sane) (heq : consumeOrderby l = some l') :
    l'.Sane := by
  rw [consumeOrderby, Option.map_eq_some_iff] at heq
  obtain ⟨⟨items, rest⟩, horder, rfl⟩ := heq
  exact (h.suffix (orderbyLoop_suffix horder)).modify fun q hq => ⟨hq.1, hq.2⟩

theorem sane_consumeCondition (note : Query → Query) (h : l.Sane)
    (hex : KeepsSane expression) (hnote : ∀ q, q.Sane → (note q).Sane)
    (heq : consumeCondition note expression l = some l') : l'.Sane := by
  obtain ⟨stack, qs, cur⟩ := l
  have h' := h.modify hnote
  unfold consumeCondition at heq
  dsimp only [Larxer.modify] at heq h'
  split at heq
  · injection heq with heq
    exact heq ▸ h'
  · rw [Option.map_eq_some_iff] at heq
    obtain ⟨⟨t, l₁⟩, hexpr, rfl⟩ := heq
    exact (hex _ _ _ h'.pop hexpr).1.modify fun q hq => ⟨hq.1, hq.2⟩
  · injection heq with heq
    exact heq ▸ h'.pop

theorem sane_consumeWhere (h : l.Sane) (hex : KeepsSane expression)
    (heq : consumeWhere expression l = some l') : l'.Sane :=
  sane_consumeCondition (fun q => { q with haswhere := true }) h hex
    (fun _ hq => ⟨hq.1, hq.2⟩) heq

theorem sane_consumeHaving (h : l.Sane) (hex : KeepsSane expression)
    (heq : consumeHaving expression l = some l') : l'.Sane :=
  sane_consumeCondition (fun q => { q with hashaving := true }) h hex
    (fun _ hq => ⟨hq.1, hq.2⟩) heq

theorem sane_endSelect (h : l.Sane) : (endSelect columns l).Sane :=
  Larxer.Sane.modify (Larxer.Sane.modify
    (h.suffix (columnsLoop_suffix columns _)) fun _ hq => ⟨hq.1, hq.2⟩)
    fun _ hq => ⟨hq.1, hq.2⟩

theorem sane_selectLoop (hex : KeepsSane expression) :
    ∀ {fuel : ℕ} {l l' : Larxer}, l.Sane →
    selectLoop expression columns fuel l = some l' → l'.Sane := by
  intro fuel
  induction fuel with
  | zero => exact fun _ h => by cases h
  | succ fuel ih =>
      intro l l' h heq
      obtain ⟨stack, qs, cur⟩ := l
      cases stack with
      | nil =>
          injection heq with heq
          exact heq ▸ h
      | cons item stack =>
          cases item with
          | typeColumns n =>
              injection heq with heq
              exact heq ▸ sane_endSelect h.pop
          | typeFrom => exact ih (sane_consumeFrom h.pop) heq
          | typeWhere =>
              obtain ⟨l₁, h₁, heq⟩ := Option.bind_eq_some_iff.mp heq
              exact ih (sane_consumeWhere h.pop hex h₁) heq
          | typeGroupby => exact ih (sane_consumeGroupby h.pop) heq
          | typeHaving =>
              obtain ⟨l₁, h₁, heq⟩ := Option.bind_eq_some_iff.mp heq
              exact ih (sane_consumeHaving h.pop hex h₁) heq
          | typeForupdate =>
              exact ih (h.pop.modify (f := fun q => { q with
                isforupdate := true }) fun _ hq => ⟨hq.1, hq.2⟩) heq
          | typeNolock =>
              exact ih (h.pop.modify (f := fun q => { q with
                hasnolock := true }) fun _ hq => ⟨hq.1, hq.2⟩) heq
          | typeOrderby =>
              obtain ⟨l₁, h₁, heq⟩ := Option.bind_eq_some_iff.mp heq
              exact ih (sane_consumeOrderby h.pop h₁) heq
          | _ => exact ih h.pop heq

theorem sane_new : ({} : Query).Sane := ⟨rfl, fun _ ha => by cases ha⟩

theorem Larxer.Sane.push {cur cur' : ℕ} {qs : List Query}
    (h : Larxer.Sane ⟨stack, qs, cur⟩) :
    Larxer.Sane ⟨stack, qs ++ [({} : Query)], cur'⟩ := by
  refine ⟨h.stack, fun q hq => ?_⟩
  rcases List.mem_append.mp hq with hq | hq
  · exact h.queries q hq
  · exact List.mem_singleton.mp hq ▸ sane_new

theorem sane_consumeSelect (hex : KeepsSane expression) (h : l.Sane)
    (heq : consumeSelect expression fuel columns l = some l') : l'.Sane :=
  sane_selectLoop hex (h.modify (f := fun q => { q with type := .select })
    fun _ hq => ⟨hq.1, hq.2⟩) heq

theorem sane_consumeSubquery {sq : ℤ} (hex : KeepsSane expression)
    (h : l.Sane) (heq : consumeSubquery expression fuel l = some (sq, l')) :
    l'.Sane := by
  obtain ⟨stack, qs, cur⟩ := l
  unfold consumeSubquery at heq
  dsimp only at heq
  split at heq
  · cases heq
  · obtain ⟨l₁, h₁, heq⟩ := Option.map_eq_some_iff.mp heq
    injection heq with _ heq
    have hsane := sane_consumeSelect hex h.pop.push h₁
    exact heq ▸ ⟨hsane.stack, hsane.queries⟩
  · injection heq with heq
    injection heq with _ heq
    exact heq ▸ h.pop.push

theorem sane_inobjectLoop (hex : KeepsSane expression) :
    ∀ {fuel : ℕ} {l l' : Larxer}, l.Sane →
    inobjectLoop expression fuel l = some l' → l'.Sane := by
  intro fuel
  induction fuel with
  | zero => exact fun _ h => by cases h
  | succ fuel ih =>
      intro l l' h heq
      obtain ⟨stack, qs, cur⟩ := l
      unfold inobjectLoop at heq
      dsimp only at heq
      split at heq
      · cases heq
      · obtain ⟨⟨t, l₁⟩, h₁, heq⟩ := Option.bind_eq_some_iff.mp heq
        exact ih ((hex _ _ _ h.pop h₁).1.modify (f := fun q => { q with
          inobject.expressionlist := q.inobject.expressionlist ++ [t] })
          fun _ hq => ⟨hq.1, hq.2⟩) heq
      · injection heq with heq
        exact heq ▸ h

/-- A list of expressions is all that an IN can find. -/
theorem sane_consumeInobject (hex : KeepsSane expression) (h : l.Sane)
    (heq : consumeInobject expression fuel l = some l') : l'.Sane := by
  obtain ⟨stack, qs, cur⟩ := l
  unfold consumeInobject at heq
  dsimp only at heq
  split at heq
  · cases heq
  · exact h.top.elim
  · exact sane_inobjectLoop hex (h.modify (f := fun q => { q with
      inobject.issubquery := false }) fun _ hq => ⟨rfl, hq.2⟩) heq

theorem climb_short : ∀ {ps : List Open} {n : Open}, climb n ps = .inl t →
    t.Short
  | [], n, h => by
      unfold climb at h
      split at h
      · injection h with h
        exact h ▸ short_operator
      · cases h
  | p :: ps, n, h => by
      unfold climb at h
      split at h
      · exact climb_short h
      · cases h

theorem rootnode_short : ∀ (ps : List Open) (n : Open),
    (rootnode n ps).Short
  | [], _ => short_operator
  | p :: ps, n => rootnode_short ps (p.put n.tree)

theorem sane_expressionFrom
    {loop : Larxer → Open → List Open → Option (Tree × Larxer)}
    (hloop : ∀ l n ps t l', l.Sane → loop l n ps = some (t, l') →
      l'.Sane ∧ t.Short) : KeepsSane (expressionFrom loop) := by
  have hbegin : ∀ item stack qs cur t l', Larxer.Sane ⟨item :: stack, qs, cur⟩ →
      beginExpression loop item ⟨stack, qs, cur⟩ = some (t, l') →
      l'.Sane ∧ t.Short := by
    intro item stack qs cur t l' h heq
    cases item with
    | typeOperator op => exact hloop _ _ _ _ _ h.pop heq
    | typeOperand v =>
        injection heq with heq
        injection heq with ht hl
        subst ht hl
        refine ⟨h.pop, fun v' hv' htype => ?_⟩
        injection hv' with hv'
        subst hv'
        exact h.top htype
    | _ =>
        injection heq with heq
        injection heq with ht hl
        exact ⟨hl ▸ h, ht ▸ short_null⟩
  intro l t l' h heq
  obtain ⟨stack, qs, cur⟩ := l
  unfold expressionFrom at heq
  dsimp only at heq
  split at heq
  · injection heq with heq
    injection heq with ht hl
    exact ⟨hl ▸ h, ht ▸ short_null⟩
  · cases heq
  · exact hbegin _ _ _ _ _ _ h.pop heq
  · exact hbegin _ _ _ _ _ _ h heq

theorem sane_expressionLoop : ∀ {fuel : ℕ} (l : Larxer) (n : Open)
    (ps : List Open) (t : Tree) (l' : Larxer), l.Sane →
    expressionLoop fuel l n ps = some (t, l') → l'.Sane ∧ t.Short := by
  intro fuel
  induction fuel with
  | zero => exact fun _ _ _ _ _ _ h => by cases h
  | succ fuel ih =>
      intro l n ps t l' h heq
      have hex : KeepsSane (expressionFrom (expressionLoop fuel)) :=
        sane_expressionFrom ih
      obtain ⟨stack, qs, cur⟩ := l
      rw [expressionLoop] at heq
      split at heq
      · next root hroot =>
          injection heq with heq
          injection heq with ht hl
          exact ⟨hl ▸ h, ht ▸ climb_short hroot⟩
      · next n' ps' _ =>
          cases stack with
          | nil =>
              injection heq with heq
              injection heq with ht hl
              exact ⟨hl ▸ h, ht ▸ short_null⟩
          | cons item stack =>
              cases item with
              | typeOperator op => exact ih _ _ _ _ _ h.pop heq
              | typeOperand v =>
                  dsimp only at heq
                  split at heq
                  · obtain ⟨⟨sq, l₁⟩, h₁, heq⟩ :=
                      Option.bind_eq_some_iff.mp heq
                    exact ih _ _ _ _ _ (sane_consumeSubquery hex h.pop h₁) heq
                  · exact ih _ _ _ _ _ h.pop heq
              | typeExpression => exact ih _ _ _ _ _ h.pop heq
              | typeInobject =>
                  obtain ⟨l₁, h₁, heq⟩ := Option.bind_eq_some_iff.mp heq
                  exact ih _ _ _ _ _ (sane_consumeInobject hex h.pop h₁) heq
              | typeInbegin => exact ih _ _ _ _ _ h.pop heq
              | _ =>
                  injection heq with heq
                  injection heq with ht hl
                  exact ⟨hl ▸ h, ht ▸ rootnode_short ps' n'⟩

theorem keepsSane_consumeExpression (fuel : ℕ) :
    KeepsSane (consumeExpression fuel) :=
  sane_expressionFrom sane_expressionLoop

theorem sane_insertLoop (hex : KeepsSane expression) :
    ∀ {fuel : ℕ} {l l' : Larxer}, l.Sane →
    insertLoop expression fuel l = some l' → l'.Sane := by
  intro fuel
  induction fuel with
  | zero => exact fun _ h => by cases h
  | succ fuel ih =>
      intro l l' h heq
      obtain ⟨stack, qs, cur⟩ := l
      unfold insertLoop at heq
      dsimp only at heq
      split at heq
      · injection heq with heq
        exact heq ▸ h
      · obtain ⟨⟨t, l₁⟩, h₁, heq⟩ := Option.bind_eq_some_iff.mp heq
        exact ih ((hex _ _ _ h.pop h₁).1.modify (f := fun q => { q with
          insertColumns := q.insertColumns ++ [t] })
          fun _ hq => ⟨hq.1, hq.2⟩) heq
      · exact ih (sane_consumeFrom h) heq

theorem mem_insertAssignment {name : Bytes} {a : Bytes × Tree} :
    ∀ {assignments : List (Bytes × Tree)},
    a ∈ insertAssignment name t assignments →
    a ∈ assignments ∨ a = (name, t)
  | [], h => .inr (List.mem_singleton.mp h)
  | (m, u) :: rest, h => by
      unfold insertAssignment at h
      split at h
      · next hm =>
          subst hm
          rcases List.mem_cons.mp h with rfl | h
          · exact .inr rfl
          · exact .inl (List.mem_cons_of_mem _ h)
      · rcases List.mem_cons.mp h with rfl | h
        · exact .inl List.mem_cons_self
        · rcases mem_insertAssignment h with h | h
          · exact .inl (List.mem_cons_of_mem _ h)
          · exact .inr h

theorem sane_consumeAssignment (hex : KeepsSane expression) (h : l.Sane)
    (heq : consumeAssignment expression l = some l') : l'.Sane := by
  obtain ⟨stack, qs, cur⟩ := l
  unfold consumeAssignment at heq
  dsimp only at heq
  split at heq
  · cases heq
  · obtain ⟨⟨t, l₁⟩, h₁, heq⟩ := Option.bind_eq_some_iff.mp heq
    obtain ⟨hsane, hshort⟩ := hex _ _ _ h.pop h₁
    obtain ⟨stack₁, qs₁, cur₁⟩ := l₁
    dsimp only at heq
    split at heq
    · cases heq
    · split at heq
      · cases heq
      · injection heq with heq
        rw [← heq]
        refine hsane.pop.modify fun q hq => ⟨hq.1, fun a ha => ?_⟩
        rcases mem_insertAssignment ha with ha | rfl
        · exact hq.2 a ha
        · exact hshort

theorem sane_updateLoop (hex : KeepsSane expression) :
    ∀ {fuel : ℕ} {l l' : Larxer}, l.Sane →
    updateLoop expression fuel l = some l' → l'.Sane := by
  intro fuel
  induction fuel with
  | zero => exact fun _ h => by cases h
  | succ fuel ih =>
      intro l l' h heq
      obtain ⟨stack, qs, cur⟩ := l
      unfold updateLoop at heq
      dsimp only at heq
      split at heq
      · injection heq with heq
        exact heq ▸ h
      · obtain ⟨l₁, h₁, heq⟩ := Option.bind_eq_some_iff.mp heq
        exact ih (sane_consumeWhere h.pop hex h₁) heq
      · obtain ⟨l₁, h₁, heq⟩ := Option.bind_eq_some_iff.mp heq
        exact ih (sane_consumeAssignment hex h.pop h₁) heq
      · injection heq with heq
        exact heq ▸ sane_consumeFrom h

theorem sane_deleteLoop (hex : KeepsSane expression) :
    ∀ {fuel : ℕ} {l l' : Larxer}, l.Sane →
    deleteLoop expression fuel l = some l' → l'.Sane := by
  intro fuel
  induction fuel with
  | zero => exact fun _ h => by cases h
  | succ fuel ih =>
      intro l l' h heq
      obtain ⟨stack, qs, cur⟩ := l
      unfold deleteLoop at heq
      dsimp only at heq
      split at heq
      · injection heq with heq
        exact heq ▸ h
      · obtain ⟨l₁, h₁, heq⟩ := Option.bind_eq_some_iff.mp heq
        exact ih (sane_consumeWhere h.pop hex h₁) heq
      · exact ih (sane_consumeFrom h) heq

theorem sane_eatLoop : ∀ {fuel : ℕ} {l l' : Larxer}, l.Sane →
    eatLoop fuel l = some l' → l'.Sane := by
  intro fuel
  induction fuel with
  | zero => exact fun _ h => by cases h
  | succ fuel ih =>
      intro l l' h heq
      obtain ⟨stack, qs, cur⟩ := l
      have hex := keepsSane_consumeExpression fuel
      cases stack with
      | nil =>
          injection heq with heq
          exact heq ▸ h
      | cons item stack =>
          cases item with
          | typeSelect n =>
              obtain ⟨l₁, h₁, heq⟩ := Option.bind_eq_some_iff.mp heq
              exact ih (sane_consumeSelect hex h.pop h₁) heq
          | typeInsert =>
              obtain ⟨l₁, h₁, heq⟩ := Option.bind_eq_some_iff.mp heq
              exact ih (sane_insertLoop hex (h.pop.modify (f := fun q =>
                { q with type := .insert, locktype := .writeLock })
                fun _ hq => ⟨hq.1, hq.2⟩) h₁) heq
          | typeUpdate =>
              obtain ⟨l₁, h₁, heq⟩ := Option.bind_eq_some_iff.mp heq
              exact ih (sane_updateLoop hex (h.pop.modify (f := fun q =>
                { q with type := .update, locktype := .writeLock })
                fun _ hq => ⟨hq.1, hq.2⟩) h₁) heq
          | typeDelete =>
              obtain ⟨l₁, h₁, heq⟩ := Option.bind_eq_some_iff.mp heq
              exact ih (sane_deleteLoop hex (h.pop.modify (f := fun q =>
                { q with type := .delete, locktype := .writeLock })
                fun _ hq => ⟨hq.1, hq.2⟩) h₁) heq
          | _ => exact ih h.pop heq

/-! ## What the rules push -/

def PlainStack (stack : Stack) : Prop := ∀ item ∈ stack, item.Plain

theorem PlainStack.cons (h : PlainStack stack) (hi : item.Plain) :
    PlainStack (item :: stack) := by
  intro i hmem
  rcases List.mem_cons.mp hmem with rfl | hmem
  · exact hi
  · exact h i hmem

theorem plain_operand (o : Operand) : (StackMember.typeOperand o.val).Plain :=
  fun h => absurd h (operandType_val o)

theorem plain_subquery : (StackMember.typeOperand [operandSubquery]).Plain :=
  fun _ => rfl

theorem PlainStack.pushIf {b : Bool} (h : PlainStack stack) (hi : item.Plain) :
    PlainStack (pushIf b item stack) := by
  cases b with
  | false => exact h
  | true => exact h.cons hi

theorem PlainStack.identifiers (names : List Bytes) : ∀ {stack : Stack},
    PlainStack stack → PlainStack (names.foldl pushIdentifier stack) := by
  induction names with
  | nil => exact fun h => h
  | cons name names ih => exact fun h => ih (h.cons (plain_operand _))

theorem PlainStack.pushGroupby (names : List Bytes) (h : PlainStack stack) :
    PlainStack (pushGroupby stack names) := by
  cases names with
  | nil => exact h
  | cons name names => exact (h.identifiers (name :: names)).cons (by trivial)

theorem PlainStack.sorts (sorts : List (Bytes × Bool)) : ∀ {stack : Stack},
    PlainStack stack → PlainStack (sorts.foldl pushSort stack) := by
  induction sorts with
  | nil => exact fun h => h
  | cons sort sorts ih =>
      intro stack h
      refine ih (((h.cons (plain_operand _)).cons ?_).cons (by trivial))
      split <;> exact trivial

theorem PlainStack.pushOrderby (sorts : List (Bytes × Bool))
    (h : PlainStack stack) : PlainStack (pushOrderby stack sorts) := by
  cases sorts with
  | nil => exact h
  | cons sort sorts => exact (h.sorts (sort :: sorts)).cons (by trivial)

theorem PlainStack.operands (columns : List Operand) : ∀ {stack : Stack},
    PlainStack stack → PlainStack (columns.foldl
      (fun stack o => StackMember.typeOperand o.val :: stack) stack) := by
  induction columns with
  | nil => exact fun h => h
  | cons o columns ih => exact fun h => ih (h.cons (plain_operand o))

theorem PlainStack.pushColumns (columns : Columns) (h : PlainStack stack) :
    PlainStack (columns.push stack) := by
  cases columns with
  | asterisk => exact (h.cons (by trivial)).cons (by trivial)
  | list columns => exact (h.operands columns).cons (by trivial)

theorem PlainStack.pushQuantifier (quantifier : Option Quantifier)
    (h : PlainStack stack) :
    PlainStack (Quantifier.push stack quantifier) := by
  rcases quantifier with _ | _ | _
  · exact h
  · exact h.cons (by trivial)
  · exact h.cons (by trivial)

mutual

theorem Expression.plain : ∀ (e : Expression) {stack : Stack},
    PlainStack stack → PlainStack (e.push stack)
  | .operand o, _, h => h.cons (plain_operand o)
  | .subquery s, _, h => (s.plain h).cons plain_subquery
  | .binary _ left right, _, h => (right.plain (left.plain h)).cons (by trivial)
  | .negation right, _, h => (right.plain h).cons (by trivial)

theorem ExpressionList.plain : ∀ (list : ExpressionList) {stack : Stack},
    PlainStack stack → PlainStack (list.push stack)
  | .one e, _, h => (e.plain h).cons (by trivial)
  | .snoc list e, _, h => (e.plain (list.plain h)).cons (by trivial)

theorem Condition.plain : ∀ (c : Condition) {stack : Stack},
    PlainStack stack → PlainStack (c.push stack)
  | .comparison _ left right, _, h =>
      ((right.plain ((left.plain h).cons (by trivial))).cons
        (by trivial)).cons (by trivial)
  | .between _ e lower upper, _, h =>
      (((upper.plain ((lower.plain ((e.plain h).cons (by trivial))).cons
        (by trivial))).cons (by trivial)).cons (by trivial)).cons
          (by trivial)
  | .isnull _ e, _, h => ((e.plain h).cons (by trivial)).cons (by trivial)
  | .inList _ e list, _, h =>
      ((list.plain (((e.plain h).cons (by trivial)).cons
        (by trivial))).cons (by trivial)).cons (by trivial)
  | .inSubquery _ e s, _, h =>
      (((s.plain (((e.plain h).cons (by trivial)).cons (by trivial))).cons
        plain_subquery).cons (by trivial)).cons (by trivial)
  | .like _ e pattern, _, h =>
      (((e.plain h).cons (by trivial)).cons
        (plain_operand (.string pattern))).cons (by trivial)
  | .exists s, _, h => ((s.plain h).cons plain_subquery).cons (by trivial)
  | .unique s, _, h => ((s.plain h).cons plain_subquery).cons (by trivial)
  | .truthtest c _, _, h => (c.plain h).cons (by trivial)
  | .not c, _, h => (c.plain h).cons (by trivial)
  | .and left right, _, h => (right.plain (left.plain h)).cons (by trivial)
  | .or left right, _, h => (right.plain (left.plain h)).cons (by trivial)

theorem Clause.plain : ∀ (clause : Clause) {type : StackMember}
    {stack : Stack}, type.Plain → PlainStack stack →
    PlainStack (clause.push type stack)
  | .absent, _, _, _, h => h
  | .present c, _, _, ht, h => ((c.plain h).cons (by trivial)).cons ht

theorem Select.plain : ∀ (s : Select) {stack : Stack}, PlainStack stack →
    PlainStack (s.push stack)
  | .mk quantifier columns table where_clause groupby having_clause forupdate
      nolock orderby, stack, h => by
      have h₁ := ((h.pushQuantifier quantifier).pushColumns columns).cons
        (plain_operand (.identifier table))
      have h₂ : PlainStack (where_clause.push .typeWhere (.typeFrom :: _)) :=
        where_clause.plain (by trivial) (h₁.cons (by trivial))
      have h₃ : PlainStack (having_clause.push .typeHaving _) :=
        having_clause.plain (by trivial) (h₂.pushGroupby groupby)
      exact (((h₃.pushIf (by trivial)).pushIf (by trivial)).pushOrderby
        orderby).cons (by trivial)

end

theorem Stmt.plain (st : Stmt) : PlainStack st.parsedStack := by
  have hnil : PlainStack [] := fun _ h => by cases h
  have htable (table : Bytes) : PlainStack (pushIdentifier [] table) :=
    hnil.cons (plain_operand (.identifier table))
  cases st with
  | select s => exact s.plain hnil
  | insert table values => exact (values.plain (htable table)).cons (by trivial)
  | update table assignments _ clause =>
      refine (clause.plain (by trivial) ?_).cons (by trivial)
      have hall : ∀ (as : List (Bytes × Expression)) (stack : Stack),
          PlainStack stack → PlainStack (as.foldl pushAssignment stack) := by
        intro as
        induction as with
        | nil => exact fun _ h => h
        | cons a as ih =>
            exact fun stack h => ih _ (((a.2.plain (h.cons
              (plain_operand (.identifier a.1)))).cons (by trivial)).cons
                (by trivial))
      exact hall assignments _ (htable table)
  | delete table clause =>
      exact (clause.plain (by trivial) (htable table)).cons (by trivial)

/-- No query of a statement has a subquery for its IN list, or an assignment
of an operand with a number. -/
theorem sane_queries {st : Stmt} {queries : List Query}
    (h : st.queries = some queries) : ∀ q ∈ queries, q.Sane := by
  obtain ⟨l, hl, rfl⟩ := Option.map_eq_some_iff.mp h
  refine (sane_eatLoop (l := ⟨st.parsedStack, [{}], 0⟩)
    ⟨st.plain, fun q hq => ?_⟩ hl).queries
  exact List.mem_singleton.mp hq ▸ sane_new

end Infinisql.Larx
