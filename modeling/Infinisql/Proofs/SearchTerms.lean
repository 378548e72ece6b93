import Infinisql.Lib.Steps
import Infinisql.Spec.SearchCondition

/-!
# A search goes along the term

The search goes into an operand that is an operator, back to the operator above
it, into the next one, and then the operator itself is applied. Which cells this
changes is said with `Same`, and what else is to be kept on the way with `Kept`.

`walk` is an induction along the term: what it comes to the search comes to, and
otherwise it strays. For what the operators do with their operands it asks one
lemma, `Applies`, and is used twice: for the expressions of a list, and for
conditions.
-/

namespace Infinisql.Conditions

open Infinisql.Ref (Ast Assignop Bytes Field FieldInput FieldValue LongDouble
  NonLockingIndexEntry floatOf integerOf integerOperand operandFieldid
  operandFloat operandInteger operandParameter operandString operandType
  toFloatOperand)
open Infinisql.Queues (Locktype)
open Infinisql.Asts (Node Operatortype Outcome becomeOperand operandSubquery
  prepare resolveParameter)
open Infinisql.Lib

variable {s : Surroundings} {w : State} {h h' : Heap Node} {n : Node}
  {op : Operatortype} {this a c : ℕ} {parent next : Option ℕ} {v lv rv : Bytes}
  {left right t : Term} {caller : Caller} {l l' : Lists}

/-! ## Cells -/

/-- Only these cells have changed. -/
def Same (foot : List ℕ) (h h' : Heap Node) : Prop :=
  ∀ b, b ∉ foot → h'.get b = h.get b

theorem Same.refl (foot : List ℕ) (h : Heap Node) : Same foot h h :=
  fun _ _ => rfl

theorem Same.trans {foot : List ℕ} {h₁ : Heap Node} (hs : Same foot h h₁)
    (hs' : Same foot h₁ h') : Same foot h h' :=
  fun b hb => (hs' b hb).trans (hs b hb)

theorem Same.mono {foot foot' : List ℕ} (hs : Same foot h h')
    (hsub : ∀ b ∈ foot, b ∈ foot') : Same foot' h h' :=
  fun b hb => hs b fun hin => hb (hsub b hin)

/-- The cell has become, or always was, an operand. -/
def IsOperand (h : Heap Node) (a : ℕ) (parent : Option ℕ) (v : Bytes) : Prop :=
  ∃ n, h.get a = some n ∧ n.isoperator = false ∧ n.operand = v ∧
    n.parent = parent

theorem IsOperand.of_same (hv : IsOperand h a parent v) {foot : List ℕ}
    (hs : Same foot h h') (ha : a ∉ foot) : IsOperand h' a parent v := by
  obtain ⟨n, hn, hrest⟩ := hv
  exact ⟨n, (hs a ha).trans hn, hrest⟩

theorem mem_cells : ∀ {parent : Option ℕ} {t : Term} {c : ℕ × Node},
    c ∈ t.cells parent → c.1 ∈ t.addresses
  | _, .missing, _, hc => absurd hc (List.not_mem_nil)
  | _, .operand _ _, _, hc => by
      rw [List.mem_singleton.mp hc]
      exact List.mem_singleton_self _
  | _, .operator this _ left right, c, hc => by
      rcases List.mem_cons.mp hc with rfl | hc
      · exact List.mem_cons_self
      · refine List.mem_cons_of_mem _ (List.mem_append.mpr ?_)
        exact (List.mem_append.mp hc).imp mem_cells mem_cells

theorem Laid.of_same (hl : Laid h parent t) {foot : List ℕ}
    (hs : Same foot h h') (hapart : ∀ b ∈ t.addresses, b ∉ foot) :
    Laid h' parent t :=
  ⟨fun c hc => (hs c.1 (hapart _ (mem_cells hc))).trans (hl.cells c hc),
    hl.arity⟩

theorem Laid.operand (hl : Laid h parent (.operand a v)) :
    IsOperand h a parent v :=
  ⟨_, hl.cells _ (List.mem_singleton_self _), rfl, rfl, rfl⟩

theorem Laid.operator (hl : Laid h parent (.operator this op left right)) :
    h.get this = some (Term.cell parent this op left right) ∧
      (op.isUnary = true → left = .missing) ∧ Laid h (some this) left ∧
      Laid h (some this) right := by
  obtain ⟨hun, hleft, hright⟩ := hl.arity
  refine ⟨hl.cells _ List.mem_cons_self, hun, ⟨fun c hc => ?_, hleft⟩,
    ⟨fun c hc => ?_, hright⟩⟩
  · exact hl.cells c (List.mem_cons_of_mem _ (List.mem_append_left _ hc))
  · exact hl.cells c (List.mem_cons_of_mem _ (List.mem_append_right _ hc))

theorem root_mem (ha : t.root = some a) : a ∈ t.addresses := by
  cases t with
  | missing => cases ha
  | operand b v =>
      rw [← Option.some.inj ha]
      exact List.mem_singleton_self _
  | operator b op left right =>
      rw [← Option.some.inj ha]
      exact List.mem_cons_self

theorem mem_left {b : ℕ} (hb : b ∈ left.addresses) :
    b ∈ (Term.operator this op left right).addresses :=
  List.mem_cons_of_mem _ (List.mem_append_left _ hb)

theorem mem_right {b : ℕ} (hb : b ∈ right.addresses) :
    b ∈ (Term.operator this op left right).addresses :=
  List.mem_cons_of_mem _ (List.mem_append_right _ hb)

/-! ## Operands -/

theorem supplied_of_ne (hv : operandType v ≠ operandParameter)
    (parameters : List Bytes) : supplied parameters v = some v := if_neg hv

/-- What is supplied stands for itself. -/
theorem supplied_value {v' : Bytes} (hv : supplied s.parameters v = some v') :
    operandType v' ≠ operandParameter := by
  unfold supplied at hv
  split at hv
  · exact s.supplied v' (List.mem_of_getElem? hv)
  · next hne =>
      rw [← Option.some.inj hv]
      exact hne

theorem resolveParameter_eq (hc : IsOperand h c parent v) :
    match supplied s.parameters v with
    | none => resolveParameter s.parameters h c v = none
    | some v' => ∃ h', resolveParameter s.parameters h c v = some h' ∧
        IsOperand h' c parent v' ∧ Same [c] h h' := by
  unfold supplied resolveParameter
  split
  · next hsup =>
      split at hsup
      · next hpar => rw [if_pos hpar, hsup, Option.map_none]
      · cases hsup
  · next v' hsup =>
      split at hsup
      · next hpar =>
          rw [if_pos hpar, hsup, Option.map_some]
          obtain ⟨n, hn, hop, -, hparent⟩ := hc
          refine ⟨_, rfl, ⟨n.setOperand v', ?_, hop, rfl, hparent⟩,
            fun b hb => ?_⟩
          · rw [Heap.get_modify_self, hn]
            rfl
          · exact Heap.get_modify_of_ne fun heq =>
              hb (heq ▸ List.mem_singleton_self _)
      · next hpar =>
          rw [if_neg hpar]
          rw [← Option.some.inj hsup]
          exact ⟨h, rfl, hc, Same.refl _ _⟩

theorem prepare_eq (hthis : h.get this = some n) (hn : n.operand = [])
    (hc : IsOperand h c parent v) : prepare s.values h this (some c) =
      (resolveParameter s.parameters h c v).map fun h => (h, none) := by
  obtain ⟨cn, hcn, hop, hval, -⟩ := hc
  rw [prepare, hcn]
  dsimp only
  rw [if_neg (by rw [hop]; exact Bool.false_ne_true), hval]
  split
  · next hsub =>
      have hscalar : subqueryScalar h this = some h := by
        rw [subqueryScalar, hthis]
        dsimp only
        rw [hn]
        exact if_pos (by decide)
      have hself : resolveParameter s.parameters h c v = some h := by
        rw [resolveParameter, if_neg (by rw [hsub]; decide)]
      change (subqueryScalar h this).map _ = _
      rw [hscalar, hself]
  · rfl

/-- An operator looks at a child that is an operand. -/
theorem prepare_operand (hthis : h.get this = some n) (hn : n.operand = [])
    (hc : IsOperand h c parent v) :
    match supplied s.parameters v with
    | none => prepare s.values h this (some c) = none
    | some v' => ∃ h', prepare s.values h this (some c) = some (h', none) ∧
        IsOperand h' c parent v' ∧ Same [c] h h' := by
  have hresolve := resolveParameter_eq (s := s) hc
  rw [prepare_eq hthis hn hc]
  split at hresolve
  · next hsup =>
      rw [hresolve]
      rfl
  · next v' hsup =>
      obtain ⟨h', hres, hrest⟩ := hresolve
      rw [hres]
      exact ⟨h', rfl, hrest⟩

/-- Of one that has been evaluated nothing is changed. -/
theorem prepare_value (hthis : h.get this = some n) (hn : n.operand = [])
    (hc : IsOperand h c parent v) (hv : operandType v ≠ operandParameter) :
    prepare s.values h this (some c) = some (h, none) := by
  rw [prepare_eq hthis hn hc, resolveParameter, if_neg hv]
  rfl

theorem prepare_operator (hc : h.get c = some n) (hop : n.isoperator = true) :
    prepare s.values h this (some c) = some (h, some c) := by
  rw [prepare, hc]
  dsimp only
  rw [if_pos hop]

/-! ## At an operator -/

theorem evaluate_leaf (hv : IsOperand w.heap a parent v) :
    match supplied s.parameters v with
    | none => evaluate s w a = none
    | some v' => ∃ h', evaluate s w a =
          some (Call.returned { w with heap := h' } ⟨true, some parent⟩) ∧
        IsOperand h' a parent v' ∧ Same [a] w.heap h' := by
  have hresolve := resolveParameter_eq (s := s) hv
  obtain ⟨n, hn, hop, hval, hparent⟩ := hv
  have heval : evaluate s w a = (resolveParameter s.parameters w.heap a v).map
      fun h => Call.returned { w with heap := h } ⟨true, some parent⟩ := by
    rw [evaluate, hn]
    dsimp only
    rw [if_pos hop, hval, hparent]
  rw [heval]
  split at hresolve
  · next hsup =>
      rw [hresolve]
      rfl
  · next v' hsup =>
      obtain ⟨h', hres, hrest⟩ := hresolve
      rw [hres]
      exact ⟨h', rfl, hrest⟩

/-- A cell that has been evaluated. -/
theorem evaluate_operand (hv : IsOperand w.heap a parent v)
    (hne : operandType v ≠ operandParameter) :
    evaluate s w a = some (.returned w ⟨true, some parent⟩) := by
  obtain ⟨n, hn, hop, hval, hparent⟩ := hv
  rw [evaluate, hn]
  dsimp only
  rw [if_pos hop, hval, resolveParameter, if_neg hne, hparent]
  rfl

/-- The look to the left, which an operator with one operand leaves out. -/
def lookLeft (s : Surroundings) (op : Operatortype) (h : Heap Node)
    (this : ℕ) (left : Term) : Option (Heap Node × Option ℕ) :=
  if op.isUnary then some (h, none) else prepare s.values h this left.root

section Cell

variable (hcell : w.heap.get this = some (Term.cell parent this op left right))

include hcell

theorem evaluate_cell : evaluate s w this =
    (lookLeft s op w.heap this left).bind fun (h, l) =>
      match l with
      | some l => some (.returned { w with heap := h } ⟨false, some (some l)⟩)
      | none => (prepare s.values h this right.root).bind fun (h, r) =>
          match r with
          | some r =>
              some (.returned { w with heap := h } ⟨false, some (some r)⟩)
          | none => execute s op { w with heap := h } this := by
  have hlook : (if op.isUnary then some (w.heap, none)
      else prepare s.values w.heap this
        (Term.cell parent this op left right).leftchild) =
      lookLeft s op w.heap this left := by
    unfold lookLeft
    split
    · rfl
    · next hun =>
        change prepare s.values w.heap this (if op.isUnary then some this
          else left.root) = _
        rw [if_neg hun]
  have hop : (Term.cell parent this op left right).isoperator = true := rfl
  have htype : (Term.cell parent this op left right).operatortype = some op :=
    rfl
  rw [evaluate, hcell]
  dsimp only
  rw [if_neg (by rw [hop]; simp), htype]
  dsimp only
  rw [hlook]
  have hchild : (Term.cell parent this op left right).rightchild =
      right.root := rfl
  cases lookLeft s op w.heap this left with
  | none => rfl
  | some p =>
      obtain ⟨h, l⟩ := p
      cases l with
      | some l => rfl
      | none =>
          rw [Option.bind_some]
          dsimp only
          rw [hchild]
          cases prepare s.values h this right.root with
          | none => rfl
          | some q =>
              obtain ⟨h, r⟩ := q
              cases r <;> rfl

theorem evaluate_left (hun : op.isUnary = false) (hl : left.root = some a)
    (hn : w.heap.get a = some n) (hop : n.isoperator = true) :
    evaluate s w this = some (.returned w ⟨false, some (some a)⟩) := by
  rw [evaluate_cell hcell, lookLeft, if_neg (by rw [hun]; simp), hl,
    prepare_operator hn hop]
  rfl

theorem evaluate_right (hleft : lookLeft s op w.heap this left = some (h, none))
    (hr : right.root = some a) (hn : h.get a = some n)
    (hop : n.isoperator = true) : evaluate s w this =
      some (.returned { w with heap := h } ⟨false, some (some a)⟩) := by
  rw [evaluate_cell hcell, hleft, Option.bind_some]
  dsimp only
  rw [hr, prepare_operator hn hop]
  rfl

theorem evaluate_execute
    (hleft : lookLeft s op w.heap this left = some (h, none))
    (hright : prepare s.values h this right.root = some (h', none)) :
    evaluate s w this = execute s op { w with heap := h' } this := by
  rw [evaluate_cell hcell, hleft, Option.bind_some]
  dsimp only
  rw [hright]
  rfl

end Cell

/-! ## From node to node -/

/-- No row that is looked for is locked by others. -/
def Calm (s : Surroundings) : Prop :=
  ∀ node i, (s.returnRows node i).any isPending = false

/-- Where a search may end early. -/
def Off (s : Surroundings) (c : Config) : Prop := c = .aborted ∧ ¬ Calm s

/-- Where a search that strays may be. -/
def Busy (c : Config) : Prop := c.Calling ∨ ∃ why, c = .stopped why

theorem strays_stopped (why : Stop) :
    Strays (step s) Busy (.stopped why) :=
  Strays.of_closed (P := (· = .stopped why)) rfl (fun d hd => by rw [hd]; rfl)
    fun d hd => .inr ⟨why, hd⟩

/-- A call of `evaluate` that traps. -/
theorem strays_trapped (heval : evaluate s w a = none) :
    Strays (step s) Busy (.searching w a next caller) := by
  refine Strays.of_step ?_
  rw [step, heval]
  exact strays_stopped .trapped

/-- To the parent, or to the end. -/
def upTo (w : State) (caller : Caller) : Option ℕ → Config
  | some p => .searching w p (some p) caller
  | none => finish w caller

theorem proceed_parent : proceed next caller a
    (some (.returned w ⟨true, some parent⟩)) = upTo w caller parent := by
  cases parent <;> rfl

/-! ## Into the operands -/

/-- Changes to these cells do not matter. -/
def Kept (R : State → Lists → Prop) (T : List ℕ) : Prop :=
  ∀ w l h, R w l → Same T w.heap h → R { w with heap := h } l

/-- The left operand, as far as there is one. -/
structure LeftIs (h : Heap Node) (this : ℕ) (op : Operatortype) (left : Term)
    (lv : Bytes) : Prop where
  binary : op.isUnary = false →
    ∃ c, left.root = some c ∧ IsOperand h c (some this) lv
  unary : op.isUnary = true → lv = []
  value : operandType lv ≠ operandParameter

/-- The operator with both operands evaluated. -/
structure Ready (h : Heap Node) (parent : Option ℕ) (this : ℕ)
    (op : Operatortype) (left right : Term) (lv rv : Bytes) : Prop where
  cell : h.get this = some (Term.cell parent this op left right)
  left : LeftIs h this op left lv
  right : ∃ c, right.root = some c ∧ IsOperand h c (some this) rv
  value : operandType rv ≠ operandParameter

theorem LeftIs.of_same (hl : LeftIs h this op left lv) {foot : List ℕ}
    (hs : Same foot h h') (hapart : ∀ b ∈ left.addresses, b ∉ foot) :
    LeftIs h' this op left lv := by
  refine ⟨fun hun => ?_, hl.unary, hl.value⟩
  obtain ⟨c, hroot, hv⟩ := hl.binary hun
  exact ⟨c, hroot, hv.of_same hs (hapart c (root_mem hroot))⟩

/-- The node is the next to be evaluated below its parent, and what happens in
these cells does not change that. -/
def Below (foot : List ℕ) (h : Heap Node) (p a : ℕ) : Prop :=
  p ∉ foot ∧ ∃ parent op left right,
    h.get p = some (Term.cell parent p op left right) ∧
      (op.isUnary = false ∧ left.root = some a ∨
        right.root = some a ∧ ∃ lv, LeftIs h p op left lv ∧
          ∀ b ∈ left.addresses, b ∉ foot)

theorem Below.of_same {foot : List ℕ} {p : ℕ} (hb : Below foot h p a)
    (hs : Same foot h h') : Below foot h' p a := by
  obtain ⟨hp, parent, op, left, right, hcell, hnext⟩ := hb
  refine ⟨hp, parent, op, left, right, (hs p hp).trans hcell, ?_⟩
  refine hnext.imp id fun hright => ?_
  obtain ⟨hroot, lv, hl, hapart⟩ := hright
  exact ⟨hroot, lv, hl.of_same hs hapart, hapart⟩

/-- Back at the parent, or at the end. -/
def Done (caller : Caller) (R : State → Lists → Prop) (foot : List ℕ)
    (h : Heap Node) (parent : Option ℕ) (a : ℕ) (v : Bytes) (l : Lists)
    (c : Config) : Prop :=
  ∃ w, c = upTo w caller parent ∧ IsOperand w.heap a parent v ∧
    operandType v ≠ operandParameter ∧ R w l ∧ Same foot h w.heap

/-- Below some parent the search of an operator comes to what the operator does,
or strays. -/
def Walks (s : Surroundings) (caller : Caller) (exec : Exec)
    (R : State → Lists → Prop) (F : List ℕ) (t : Term) : Prop :=
  ∀ p a w l, Laid w.heap (some p) t → t.root = some a →
    t.isOperator = true → Below (t.addresses ++ F) w.heap p a → R w l →
    (∀ v l', t.comes s.parameters exec l = some (v, l') →
      Attains (step s) (Off s) (.searching w a (some a) caller)
        (Done caller R (t.addresses ++ F) w.heap (some p) a v l')) ∧
    (t.comes s.parameters exec l = none → Calm s →
      Strays (step s) Busy (.searching w a (some a) caller))

/-- Once an operand has been evaluated, `nextAstNode` is the operator. -/
def after (t : Term) (this : ℕ) (next : Option ℕ) : Option ℕ :=
  if t.isOperator then some this else next

section Turns

variable {exec : Exec} {R : State → Lists → Prop} {T F : List ℕ}

/-- The search is at the operator and the left operand has been evaluated. -/
def LeftDone (s : Surroundings) (caller : Caller) (R : State → Lists → Prop)
    (F : List ℕ) (w : State) (t : Term) (parent next : Option ℕ) (this : ℕ)
    (op : Operatortype) (left right : Term) (lv : Bytes) (l : Lists)
    (c : Config) : Prop :=
  ∃ w' h, c = .searching w' this next caller ∧
    Laid w'.heap (some this) right ∧
    w'.heap.get this = some (Term.cell parent this op left right) ∧
    lookLeft s op w'.heap this left = some (h, none) ∧
    LeftIs h this op left lv ∧ Same left.addresses w'.heap h ∧ R w' l ∧
    Same (t.addresses ++ F) w.heap w'.heap

/-- The search is at the operator and both have been evaluated. -/
def AtExec (s : Surroundings) (caller : Caller) (R : State → Lists → Prop)
    (F : List ℕ) (w : State) (t : Term) (parent next : Option ℕ) (this : ℕ)
    (op : Operatortype) (left right : Term) (lv rv : Bytes) (l : Lists)
    (c : Config) : Prop :=
  ∃ w₁ w₂, c = .searching w₁ this next caller ∧
    evaluate s w₁ this = execute s op w₂ this ∧
    Ready w₂.heap parent this op left right lv rv ∧ R w₂ l ∧
    Same (t.addresses ++ F) w.heap w₂.heap

/-- A second look. -/
theorem look_again
    (hcell : h.get this = some (Term.cell parent this op left right))
    (hl : LeftIs h this op left lv) :
    lookLeft s op h this left = some (h, none) := by
  by_cases hun : op.isUnary = true
  · exact if_pos hun
  · obtain ⟨c, hroot, hv⟩ := hl.binary (Bool.not_eq_true _ ▸ hun)
    rw [lookLeft, if_neg hun, hroot, prepare_value hcell rfl hv hl.value]

/-- An operator that is ready is applied. -/
theorem evaluate_ready
    (hready : Ready w.heap parent this op left right lv rv) :
    evaluate s w this = execute s op w this := by
  obtain ⟨hcell, hl, ⟨c, hroot, hv⟩, hvalue⟩ := hready
  refine evaluate_execute hcell (look_again hcell hl) ?_
  rw [hroot, prepare_value hcell rfl hv hvalue]

section Left

variable (hlaid : Laid w.heap parent (.operator this op left right))
  (hR : R w l)

include hlaid hR

/-- A left operand that is none from the beginning. -/
theorem left_here (hroot : left.root = some a) (hun : op.isUnary = false)
    (hv : IsOperand w.heap a (some this) v)
    (hsup : supplied s.parameters v = some lv) :
    LeftDone s caller R F w (.operator this op left right) parent next this op
      left right lv l (.searching w this next caller) := by
  obtain ⟨hcell, -, -, hright⟩ := hlaid.operator
  have hprep := prepare_operand (s := s) hcell rfl hv
  rw [hsup] at hprep
  obtain ⟨h, hprep, hlv, hsame⟩ := hprep
  refine ⟨w, h, rfl, hright, hcell, ?_, ⟨fun _ => ⟨a, hroot, hlv⟩, ?_,
    supplied_value hsup⟩, hsame.mono ?_, hR, Same.refl _ _⟩
  · rw [lookLeft, if_neg (by rw [hun]; simp), hroot, hprep]
  · intro h
    rw [hun] at h
    cases h
  · intro b hb
    rw [List.mem_singleton.mp hb]
    exact root_mem hroot

omit hlaid hR in
theorem left_outside
    (hapart : (Term.operator this op left right).addresses.Nodup)
    (hF : ∀ b ∈ (Term.operator this op left right).addresses, b ∉ F) :
    this ∉ left.addresses ++ F := by
  intro hmem
  rcases List.mem_append.mp hmem with hmem | hmem
  · exact (List.nodup_cons.mp hapart).1 (List.mem_append_left _ hmem)
  · exact hF this List.mem_cons_self hmem

omit hR in
/-- Back from a left operand that was an operator. -/
theorem left_back {d : Config}
    (hapart : (Term.operator this op left right).addresses.Nodup)
    (hF : ∀ b ∈ (Term.operator this op left right).addresses, b ∉ F)
    (hun : op.isUnary = false) (hroot : left.root = some a)
    (hd : Done caller R (left.addresses ++ F) w.heap (some this) a lv l d) :
    LeftDone s caller R F w (.operator this op left right) parent (some this)
      this op left right lv l d := by
  obtain ⟨w', rfl, hlv, hvalue, hR', hsame⟩ := hd
  obtain ⟨hcell, -, -, hright⟩ := hlaid.operator
  have hcell' := (hsame this (left_outside hapart hF)).trans hcell
  have hdisj := List.disjoint_of_nodup_append (List.nodup_cons.mp hapart).2
  have hl : LeftIs w'.heap this op left lv := by
    refine ⟨fun _ => ⟨a, hroot, hlv⟩, fun h => ?_, hvalue⟩
    rw [hun] at h
    cases h
  refine ⟨w', w'.heap, rfl, hright.of_same hsame fun b hb hmem => ?_, hcell',
    look_again hcell' hl, hl, Same.refl _ _, hR', hsame.mono fun b hb => ?_⟩
  · rcases List.mem_append.mp hmem with hmem | hmem
    · exact hdisj hmem hb
    · exact hF b (mem_right hb) hmem
  · exact List.mem_append.mpr ((List.mem_append.mp hb).imp mem_left id)

variable (next) in
/-- The left operand first. -/
theorem left_turn
    (hapart : (Term.operator this op left right).addresses.Nodup)
    (hF : ∀ b ∈ (Term.operator this op left right).addresses, b ∉ F)
    (hwalks : Walks s caller exec R F left) :
    (∀ lv l', (if op.isUnary then some ([], l)
        else left.comes s.parameters exec l) = some (lv, l') →
      Attains (step s) (Off s) (.searching w this next caller)
        (LeftDone s caller R F w (.operator this op left right) parent
          (after left this next) this op left right lv l')) ∧
    ((if op.isUnary then some ([], l)
        else left.comes s.parameters exec l) = none → Calm s →
      Strays (step s) Busy (.searching w this next caller)) := by
  obtain ⟨hcell, hmissing, hleft, hright⟩ := hlaid.operator
  by_cases hun : op.isUnary = true
  · rw [if_pos hun]
    refine ⟨fun lv l' hcomes => .here ?_, fun hnone => by cases hnone⟩
    obtain ⟨rfl, rfl⟩ := Prod.mk.inj (Option.some.inj hcomes)
    have hnext : after left this next = next := by
      rw [hmissing hun]
      rfl
    rw [hnext]
    refine ⟨w, w.heap, rfl, hright, hcell, if_pos hun, ⟨fun h => ?_,
      fun _ => rfl, by decide⟩, Same.refl _ _, hR, Same.refl _ _⟩
    rw [hun] at h
    cases h
  · have hbin : op.isUnary = false := Bool.not_eq_true _ ▸ hun
    rw [if_neg hun]
    cases left with
    | missing =>
        refine ⟨fun lv l' hcomes => (by cases hcomes), fun _ _ => ?_⟩
        refine strays_trapped ?_
        rw [evaluate_cell hcell, lookLeft, if_neg hun]
        rfl
    | operand c v =>
        have hv := hleft.operand
        refine ⟨fun lv l' hcomes => .here ?_, fun hnone _ => ?_⟩
        · obtain ⟨v', hsup, hpair⟩ := Option.map_eq_some_iff.mp hcomes
          obtain ⟨rfl, rfl⟩ := Prod.mk.inj hpair
          exact left_here hlaid hR rfl hbin hv hsup
        · have hsup := Option.map_eq_none_iff.mp hnone
          have hprep := prepare_operand (s := s) hcell rfl hv
          rw [hsup] at hprep
          refine strays_trapped ?_
          rw [evaluate_cell hcell, lookLeft, if_neg hun]
          change (prepare s.values w.heap this (some c)).bind _ = none
          rw [hprep]
          rfl
    | operator c lop ll lr =>
        obtain ⟨hlcell, -⟩ := hleft.operator
        have hdown : step s (.searching w this next caller) =
            .searching w c (some c) caller := by
          rw [step, evaluate_left hcell hbin rfl hlcell rfl]
          rfl
        have hbelow : Below ((Term.operator c lop ll lr).addresses ++ F)
            w.heap this c :=
          ⟨left_outside hapart hF, parent, op, _, right, hcell,
            .inl ⟨hbin, rfl⟩⟩
        obtain ⟨hgood, hbad⟩ := hwalks this c w l hleft rfl rfl hbelow hR
        refine ⟨fun lv l' hcomes => .of_step ?_, fun hnone hcalm =>
          .of_step ?_⟩
        · rw [hdown]
          exact (hgood lv l' hcomes).mono fun d hd =>
            left_back hlaid hapart hF hbin rfl hd
        · rw [hdown]
          exact hbad hnone hcalm

end Left

section Right

variable (hapart : (Term.operator this op left right).addresses.Nodup)
  (hkept : Kept R (Term.operator this op left right).addresses)

include hapart hkept

/-- A look at both operands, where the right one is none. -/
theorem right_here
    (hcell : w.heap.get this = some (Term.cell parent this op left right))
    (hleft : lookLeft s op w.heap this left = some (h, none))
    (hl : LeftIs h this op left lv) (hsame : Same left.addresses w.heap h)
    (hroot : right.root = some a) (hv : IsOperand w.heap a (some this) v)
    (hsup : supplied s.parameters v = some rv) (hR : R w l) :
    ∃ w₂, evaluate s w this = execute s op w₂ this ∧
      Ready w₂.heap parent this op left right lv rv ∧ R w₂ l ∧
      Same (Term.operator this op left right).addresses w.heap w₂.heap := by
  have hnodup := List.nodup_cons.mp hapart
  have hdisj := List.disjoint_of_nodup_append hnodup.2
  have hthis := fun hin => hnodup.1 (List.mem_append_left _ hin)
  have ha := root_mem hroot
  have hcell₁ := (hsame this hthis).trans hcell
  have hv₁ := hv.of_same hsame fun hin => hdisj hin ha
  have hprep := prepare_operand (s := s) hcell₁ rfl hv₁
  rw [hsup] at hprep
  obtain ⟨h', hprep, hrv, hsame'⟩ := hprep
  have hne : this ∉ [a] := by
    intro hin
    rw [List.mem_singleton.mp hin] at hnodup
    exact hnodup.1 (List.mem_append_right _ ha)
  have hall : Same (Term.operator this op left right).addresses w.heap h' := by
    refine (hsame.mono fun b hb => ?_).trans (hsame'.mono fun b hb => ?_)
    · exact List.mem_cons_of_mem _ (List.mem_append_left _ hb)
    · rw [List.mem_singleton.mp hb]
      exact List.mem_cons_of_mem _ (List.mem_append_right _ ha)
  refine ⟨{ w with heap := h' }, ?_, ⟨(hsame' this hne).trans hcell₁,
    hl.of_same hsame' ?_, ⟨a, hroot, hrv⟩, supplied_value hsup⟩,
    hkept w l h' hR hall, hall⟩
  · exact evaluate_execute hcell hleft (by rw [hroot, hprep])
  · intro b hb hin
    rw [List.mem_singleton.mp hin] at hb
    exact hdisj hb ha

omit hapart hkept in
theorem right_outside
    (hapart : (Term.operator this op left right).addresses.Nodup)
    (hF : ∀ b ∈ (Term.operator this op left right).addresses, b ∉ F) :
    this ∉ right.addresses ++ F ∧
      ∀ b ∈ left.addresses, b ∉ right.addresses ++ F := by
  have hnodup := List.nodup_cons.mp hapart
  have hdisj := List.disjoint_of_nodup_append hnodup.2
  refine ⟨fun hmem => ?_, fun b hb hmem => ?_⟩
  · rcases List.mem_append.mp hmem with hmem | hmem
    · exact hnodup.1 (List.mem_append_right _ hmem)
    · exact hF this List.mem_cons_self hmem
  · rcases List.mem_append.mp hmem with hmem | hmem
    · exact hdisj hb hmem
    · exact hF b (mem_left hb) hmem

/-- Back from a right operand that was an operator. -/
theorem right_back {w₀ : State} {d : Config}
    (hF : ∀ b ∈ (Term.operator this op left right).addresses, b ∉ F)
    (hcell : h.get this = some (Term.cell parent this op left right))
    (hl : LeftIs h this op left lv) (hroot : right.root = some a)
    (hsame : Same ((Term.operator this op left right).addresses ++ F)
      w₀.heap h)
    (hd : Done caller R (right.addresses ++ F) h (some this) a rv l d) :
    AtExec s caller R F w₀ (.operator this op left right) parent (some this)
      this op left right lv rv l d := by
  obtain ⟨w', rfl, hrv, hvalue, hR', hsame'⟩ := hd
  obtain ⟨hthis, hleft⟩ := right_outside hapart hF
  have hcell' := (hsame' this hthis).trans hcell
  have hl' := hl.of_same hsame' hleft
  obtain ⟨w₂, heval, hready, hR₂, hsame₂⟩ := right_here hapart hkept hcell'
    (look_again hcell' hl') hl' (Same.refl _ _) hroot hrv
    (supplied_of_ne hvalue _) hR'
  refine ⟨w', w₂, rfl, heval, hready, hR₂, hsame.trans ((hsame'.mono
    fun b hb => ?_).trans (hsame₂.mono
    fun b hb => List.mem_append_left _ hb))⟩
  exact List.mem_append.mpr ((List.mem_append.mp hb).imp mem_right id)

/-- The right operand after the left one. -/
theorem right_turn {w₀ : State} {d : Config}
    (hF : ∀ b ∈ (Term.operator this op left right).addresses, b ∉ F)
    (hwalks : Walks s caller exec R F right)
    (hd : LeftDone s caller R F w₀ (.operator this op left right) parent next
      this op left right lv l d) :
    (∀ rv l', right.comes s.parameters exec l = some (rv, l') →
      Attains (step s) (Off s) d
        (AtExec s caller R F w₀ (.operator this op left right) parent
          (after right this next) this op left right lv rv l')) ∧
    (right.comes s.parameters exec l = none → Calm s →
      Strays (step s) Busy d) := by
  obtain ⟨w, h, rfl, hright, hcell, hleft, hl, hsame, hR, hsame₀⟩ := hd
  have hnodup := List.nodup_cons.mp hapart
  have hdisj := List.disjoint_of_nodup_append hnodup.2
  have hthis := fun hin => hnodup.1 (List.mem_append_left _ hin)
  have hcell₁ := (hsame this hthis).trans hcell
  have hright₁ := hright.of_same hsame fun b hb hin => hdisj hin hb
  cases right with
  | missing =>
      refine ⟨fun rv l' hcomes => (by cases hcomes), fun _ _ => ?_⟩
      refine strays_trapped ?_
      rw [evaluate_cell hcell, hleft]
      rfl
  | operand c v =>
      refine ⟨fun rv l' hcomes => .here ?_, fun hnone _ => ?_⟩
      · obtain ⟨v', hsup, hpair⟩ := Option.map_eq_some_iff.mp hcomes
        obtain ⟨rfl, rfl⟩ := Prod.mk.inj hpair
        obtain ⟨w₂, heval, hready, hR₂, hsame₂⟩ := right_here hapart hkept
          hcell hleft hl hsame rfl hright.operand hsup hR
        exact ⟨w, w₂, rfl, heval, hready, hR₂, hsame₀.trans
          (hsame₂.mono fun b hb => List.mem_append_left _ hb)⟩
      · have hsup := Option.map_eq_none_iff.mp hnone
        have hprep := prepare_operand (s := s) hcell₁ rfl hright₁.operand
        rw [hsup] at hprep
        refine strays_trapped ?_
        rw [evaluate_cell hcell, hleft, Option.bind_some]
        change (prepare s.values h this (some c)).bind _ = none
        rw [hprep]
        rfl
  | operator c rop rl rr =>
      obtain ⟨hrcell, -⟩ := hright₁.operator
      have hdown : step s (.searching w this next caller) =
          .searching { w with heap := h } c (some c) caller := by
        rw [step, evaluate_right hcell hleft rfl hrcell rfl]
        rfl
      have hall : Same (Term.operator this op left
          (.operator c rop rl rr)).addresses w.heap h :=
        hsame.mono fun b hb => mem_left hb
      obtain ⟨hthis', hleft'⟩ := right_outside hapart hF
      have hbelow : Below ((Term.operator c rop rl rr).addresses ++ F) h
          this c :=
        ⟨hthis', parent, op, left, _, hcell₁, .inr ⟨rfl, lv, hl, hleft'⟩⟩
      obtain ⟨hgood, hbad⟩ := hwalks this c { w with heap := h } l hright₁ rfl
        rfl hbelow (hkept w l h hR hall)
      refine ⟨fun rv l' hcomes => .of_step ?_, fun hnone hcalm => .of_step ?_⟩
      · rw [hdown]
        exact (hgood rv l' hcomes).mono fun d hd =>
          right_back hapart hkept hF hcell₁ hl rfl (hsame₀.trans (hall.mono
            fun b hb => List.mem_append_left _ hb)) hd
      · rw [hdown]
        exact hbad hnone hcalm

end Right

end Turns

/-! ## Along the term -/

theorem comes_operator {parameters : List Bytes} {exec : Exec} :
    (Term.operator this op left right).comes parameters exec l =
      (both parameters exec op left right l).bind fun (lv, rv, l) =>
        exec this op lv rv l := by
  rw [Term.comes, both, Option.bind_assoc]
  refine Option.bind_congr fun (lv, l) _ => ?_
  rw [Option.bind_map]
  rfl

/-- Behind both operands. -/
def afterBoth (left right : Term) (this : ℕ) (next : Option ℕ) : Option ℕ :=
  after right this (after left this next)

@[simp] theorem afterBoth_self :
    afterBoth left right this (some this) = some this := by
  unfold afterBoth after
  cases left.isOperator <;> cases right.isOperator <;> rfl

theorem afterBoth_none : afterBoth left right this none =
    if left.isOperator ∨ right.isOperator then some this else none := by
  unfold afterBoth after
  cases left.isOperator <;> cases right.isOperator <;> rfl

section Walk

variable {exec : Exec} {R : State → Lists → Prop} {T F : List ℕ}

/-- The cells of an operator, and of its operands. -/
structure Apart (R : State → Lists → Prop) (F : List ℕ) (this : ℕ)
    (op : Operatortype) (left right : Term) : Prop where
  nodup : (Term.operator this op left right).addresses.Nodup
  elsewhere : ∀ b ∈ (Term.operator this op left right).addresses, b ∉ F
  kept : Kept R (Term.operator this op left right).addresses

variable (next) in
/-- Both operands. -/
theorem operands_turn (hapart : Apart R F this op left right)
    (hlaid : Laid w.heap parent (.operator this op left right)) (hR : R w l)
    (hleft : Walks s caller exec R F left)
    (hright : Walks s caller exec R F right) :
    (∀ lv rv l', both s.parameters exec op left right l = some (lv, rv, l') →
      Attains (step s) (Off s) (.searching w this next caller)
        (AtExec s caller R F w (.operator this op left right) parent
          (afterBoth left right this next) this op left right lv rv l')) ∧
    (both s.parameters exec op left right l = none → Calm s →
      Strays (step s) Busy (.searching w this next caller)) := by
  obtain ⟨hgood, hbad⟩ := left_turn next hlaid hR hapart.nodup
    hapart.elsewhere hleft
  refine ⟨fun lv rv l' hboth => ?_, fun hnone hcalm => ?_⟩
  · obtain ⟨⟨lv', l₁⟩, hlv, hmap⟩ := Option.bind_eq_some_iff.mp hboth
    obtain ⟨⟨rv', l₂⟩, hrv, hpair⟩ := Option.map_eq_some_iff.mp hmap
    injection hpair with h₁ h₂
    injection h₂ with h₂ h₃
    subst h₁ h₂ h₃
    refine (hgood _ _ hlv).trans fun d hd => ?_
    exact (right_turn hapart.nodup hapart.kept hapart.elsewhere hright hd).1
      _ _ hrv
  · cases hlv : (if op.isUnary then some ([], l)
        else left.comes s.parameters exec l) with
    | none => exact hbad hlv hcalm
    | some p =>
        obtain ⟨lv, l₁⟩ := p
        refine (hgood _ _ hlv).strays (fun d hd => hd.2 hcalm) fun d hd => ?_
        refine (right_turn hapart.nodup hapart.kept hapart.elsewhere hright
          hd).2 ?_ hcalm
        rw [both, hlv] at hnone
        exact Option.map_eq_none_iff.mp hnone

/-- An operator is about to be applied. -/
structure AtOperator (s : Surroundings) (R : State → Lists → Prop) (F : List ℕ)
    (w₁ w : State) (parent : Option ℕ) (this : ℕ) (op : Operatortype)
    (left right : Term) (lv rv : Bytes) (l : Lists) : Prop where
  apart : Apart R F this op left right
  evaluate : evaluate s w₁ this = execute s op w this
  ready : Ready w.heap parent this op left right lv rv
  lists : R w l

/-- What the operator does with its operands the search comes to, or it
strays. -/
def Reaches (s : Surroundings) (caller : Caller) (exec : Exec)
    (R : State → Lists → Prop) (foot : List ℕ) (w₁ w : State)
    (parent next : Option ℕ) (this : ℕ) (op : Operatortype) (lv rv : Bytes)
    (l : Lists) : Prop :=
  (∀ v l', exec this op lv rv l = some (v, l') →
    Attains (step s) (Off s) (.searching w₁ this next caller)
      (Done caller R foot w.heap parent this v l')) ∧
  (exec this op lv rv l = none → Calm s →
    Strays (step s) Busy (.searching w₁ this next caller))

/-- What is asked of an operator below another one. -/
def Applies (s : Surroundings) (caller : Caller) (exec : Exec)
    (R : State → Lists → Prop) (F : List ℕ) (op : Operatortype) : Prop :=
  ∀ p this left right w₁ w lv rv l,
    AtOperator s R F w₁ w (some p) this op left right lv rv l →
    Below ((Term.operator this op left right).addresses ++ F) w.heap p this →
    Reaches s caller exec R ((Term.operator this op left right).addresses ++ F)
      w₁ w (some p) (some this) this op lv rv l

/-- All operators of the term are of a kind. -/
def Term.Uses (kind : Operatortype → Prop) : Term → Prop
  | .operator _ op left right => kind op ∧ left.Uses kind ∧ right.Uses kind
  | _ => True

theorem Kept.mono {T' : List ℕ} (hk : Kept R T) (hsub : ∀ b ∈ T', b ∈ T) :
    Kept R T' := fun w l h hR hs => hk w l h hR (hs.mono hsub)

/-- By induction on the term. -/
theorem walk {kind : Operatortype → Prop}
    (happlies : ∀ op, kind op → Applies s caller exec R F op) :
    ∀ t : Term, t.Uses kind → t.addresses.Nodup → (∀ b ∈ t.addresses, b ∉ F) →
      Kept R t.addresses → Walks s caller exec R F t := by
  intro t
  induction t with
  | missing =>
      intro _ _ _ _ p a w l _ hroot
      cases hroot
  | operand b v =>
      intro _ _ _ _ p a w l _ _ hop
      cases hop
  | operator this op left right ihl ihr =>
      intro huses hnodup hF hkept p a w l hlaid hroot _ hbelow hR
      obtain ⟨hkind, hul, hur⟩ := huses
      injection hroot with hroot
      subst hroot
      have hnd := List.nodup_append.mp (List.nodup_cons.mp hnodup).2
      have hwl := ihl hul hnd.1 (fun b hb => hF b (mem_left hb))
        (hkept.mono fun b hb => mem_left hb)
      have hwr := ihr hur hnd.2.1 (fun b hb => hF b (mem_right hb))
        (hkept.mono fun b hb => mem_right hb)
      have hapart : Apart R F this op left right := ⟨hnodup, hF, hkept⟩
      obtain ⟨hgood, hbad⟩ := operands_turn (some this) hapart hlaid hR
        hwl hwr
      rw [afterBoth_self] at hgood
      rw [comes_operator]
      refine ⟨fun v l' hcomes => ?_, fun hnone hcalm => ?_⟩
      · obtain ⟨⟨lv, rv, l₁⟩, hboth, hexec⟩ := Option.bind_eq_some_iff.mp hcomes
        refine (hgood lv rv l₁ hboth).trans ?_
        rintro _ ⟨w₁, w₂, rfl, heval, hready, hR₂, hsame⟩
        refine ((happlies op hkind p this left right w₁ w₂ lv rv l₁
          ⟨hapart, heval, hready, hR₂⟩ (hbelow.of_same hsame)).1 v l'
          hexec).mono ?_
        rintro _ ⟨w', rfl, hv, hvalue, hR', hsame'⟩
        exact ⟨w', rfl, hv, hvalue, hR', hsame.trans hsame'⟩
      · cases hboth : both s.parameters exec op left right l with
        | none => exact hbad hboth hcalm
        | some q =>
            obtain ⟨lv, rv, l₁⟩ := q
            rw [hboth] at hnone
            refine (hgood lv rv l₁ hboth).strays (fun d hd => hd.2 hcalm) ?_
            rintro _ ⟨w₁, w₂, rfl, heval, hready, hR₂, hsame⟩
            exact (happlies op hkind p this left right w₁ w₂ lv rv l₁
              ⟨hapart, heval, hready, hR₂⟩ (hbelow.of_same hsame)).2 hnone hcalm

end Walk

end Infinisql.Conditions
