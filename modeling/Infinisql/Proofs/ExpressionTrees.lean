import Infinisql.Spec.AstNodes

/-!
# Trees in the heap, and their copies

What the routines on linked trees need to know of the cells: a tree's cells
are at its addresses, a tree is still there after writes elsewhere, and a tree
with no address twice can be laid out in a heap.

`Ast::cp` copies the two pointers to children by copying what they point to,
and the pointer to the parent as it is. So the children of a copy have their
parent in the original, and every walk that goes up from one of them leaves
the copy. And the left pointer of a unary operator is followed like any other,
to the operator itself, of which a copy is made, of whose left pointer a copy
is made. `copied_iff_operand` says that a query tree is copied as it should be
only if it is a single operand; `copy_ends_iff` says that copying ends exactly
for the trees without a unary operator.
-/

namespace Infinisql.Asts

open Infinisql.Ref Infinisql.Lib

/-! ## Cells of a tree -/

theorem cells_addresses (t : Tree) : ∀ parent,
    (t.cells parent).map Prod.fst = t.addresses := by
  induction t with
  | operand this value => exact fun _ => rfl
  | unary this op right ih =>
      intro parent
      rw [Tree.cells, Tree.addresses, List.map_cons, ih]
  | binary this op left right ihl ihr =>
      intro parent
      rw [Tree.cells, Tree.addresses, List.map_cons, List.map_append, ihl, ihr]

theorem root_mem (t : Tree) : t.root ∈ t.addresses := by
  cases t with
  | operand this value => exact List.mem_cons_self
  | unary this op right => exact List.mem_cons_self
  | binary this op left right => exact List.mem_cons_self

/-- The tree is still there if its cells are. -/
theorem Holds.of_agree {h h' : Heap Node} {parent : Option ℕ} {t : Tree}
    (ht : Holds h parent t)
    (hagree : ∀ a ∈ t.addresses, h'.get a = h.get a) : Holds h' parent t := by
  intro c hc
  rw [hagree c.1 (by
    rw [← cells_addresses t parent]
    exact List.mem_map_of_mem hc)]
  exact ht c hc

theorem Holds.lt_next {h : Heap Node} {parent : Option ℕ} {t : Tree}
    (ht : Holds h parent t) {a : ℕ} (ha : a ∈ t.addresses) : a < h.next := by
  rw [← cells_addresses t parent] at ha
  obtain ⟨c, hc, rfl⟩ := List.mem_map.mp ha
  exact Heap.lt_of_get (ht c hc)

variable {h h' : Heap Node} {parent : Option ℕ} {this a : ℕ}
  {op : Operatortype} {left right t : Tree}

theorem Built.of_agree (hb : Built h parent t)
    (hagree : ∀ a ∈ t.addresses, h'.get a = h.get a) : Built h' parent t :=
  ⟨hb.holds.of_agree hagree, hb.arity, hb.apart⟩

/-- A unary operator and its operand. -/
theorem Built.unary (hb : Built h parent (.unary this op right)) :
    op.isUnary = true ∧ this ∉ right.addresses ∧ Built h (some this) right ∧
    h.get this = some
      { parent := parent
        rightchild := some right.root
        leftchild := some this
        isoperator := true
        operatortype := some op
        operand := [] } := by
  obtain ⟨hop, hright⟩ := hb.arity
  obtain ⟨hnot, hnd⟩ := List.nodup_cons.mp hb.apart
  refine ⟨hop, hnot, ⟨fun c hc => ?_, hright, hnd⟩, ?_⟩
  · exact hb.holds c (List.mem_cons_of_mem _ hc)
  · have hcell := hb.holds _ List.mem_cons_self
    dsimp only [Node.operator] at hcell
    rw [if_pos hop] at hcell
    exact hcell

/-- A binary operator and its operands. -/
theorem Built.binary (hb : Built h parent (.binary this op left right)) :
    op.isUnary = false ∧ this ∉ left.addresses ∧ this ∉ right.addresses ∧
    (∀ a ∈ left.addresses, a ∉ right.addresses) ∧
    Built h (some this) left ∧ Built h (some this) right ∧
    h.get this = some
      { parent := parent
        rightchild := some right.root
        leftchild := some left.root
        isoperator := true
        operatortype := some op
        operand := [] } := by
  obtain ⟨hop, hleft, hright⟩ := hb.arity
  obtain ⟨hnot, hnd⟩ := List.nodup_cons.mp hb.apart
  obtain ⟨hndl, hndr, hdisj⟩ := List.nodup_append.mp hnd
  rw [List.mem_append, not_or] at hnot
  refine ⟨hop, hnot.1, hnot.2, fun a ha ha' => hdisj a ha a ha' rfl,
    ⟨fun c hc => ?_, hleft, hndl⟩, ⟨fun c hc => ?_, hright, hndr⟩, ?_⟩
  · exact hb.holds c (List.mem_cons_of_mem _ (List.mem_append_left _ hc))
  · exact hb.holds c (List.mem_cons_of_mem _ (List.mem_append_right _ hc))
  · exact hb.holds _ List.mem_cons_self

theorem Built.operand {value : Bytes} (hb : Built h parent (.operand a value)) :
    h.get a = some
      { parent := parent
        rightchild := none
        leftchild := none
        isoperator := false
        operatortype := none
        operand := value } :=
  hb.holds _ List.mem_cons_self

/-- Whatever a tree is, its root has the parent. -/
theorem Built.root_parent (hb : Built h parent t) :
    ∃ n, h.get t.root = some n ∧ n.parent = parent := by
  cases t with
  | operand this value => exact ⟨_, hb.operand, rfl⟩
  | unary this op right => exact ⟨_, hb.unary.2.2.2, rfl⟩
  | binary this op left right => exact ⟨_, hb.binary.2.2.2.2.2.2, rfl⟩

/-- A tree can be laid out if no address occurs twice. -/
theorem exists_built (parent : Option ℕ) (harity : t.Arity)
    (hnd : t.addresses.Nodup) :
    Built (Heap.ofList (t.cells parent)) parent t := by
  refine ⟨fun c hc => Heap.get_ofList ?_ hc, harity, hnd⟩
  rw [cells_addresses]
  exact hnd

/-! ## Copying -/

theorem copyMembers_of_ne {o : Node} {b : ℕ} (hne : b ≠ this) :
    (copyMembers h this o).get b = h.get b := Heap.get_modify_of_ne hne

@[simp] theorem copyMembers_next {o : Node} :
    (copyMembers h this o).next = h.next := rfl

/-- The first steps of a copy leave the other cells alone. -/
theorem newLeft_of_lt {o : Node} {b : ℕ} (hne : b ≠ this) (hlt : b < h.next) :
    (newLeft (copyMembers h this o) this).get b = h.get b := by
  have hnew : b ≠ (copyMembers h this o).next := Nat.ne_of_lt hlt
  rw [newLeft, Heap.get_modify_of_ne hne, Heap.get_alloc_of_ne hnew,
    copyMembers_of_ne hne]

theorem newRight_of_lt {b : ℕ} (hne : b ≠ this) (hlt : b < h.next) :
    (newRight h this).get b = h.get b := by
  rw [newRight, Heap.get_modify_of_ne hne,
    Heap.get_alloc_of_ne (Nat.ne_of_lt hlt)]

theorem newLeft_this {n : Node} (hn : h.get this = some n) :
    (newLeft h this).get this = some { n with leftchild := some h.next } := by
  rw [newLeft, Heap.get_modify_self,
    Heap.get_alloc_of_ne (Nat.ne_of_lt (Heap.lt_of_get hn)), hn]
  rfl

theorem newRight_this {n : Node} (hn : h.get this = some n) :
    (newRight h this).get this = some { n with rightchild := some h.next } := by
  rw [newRight, Heap.get_modify_self,
    Heap.get_alloc_of_ne (Nat.ne_of_lt (Heap.lt_of_get hn)), hn]
  rfl

/-- Copying writes to the copy, and to cells that are new. -/
theorem cp_frame (fuel : ℕ) : ∀ {h h' : Heap Node} {this orig : ℕ},
    cp fuel h this orig = some h' → h.next ≤ h'.next ∧
      ∀ b, b < h.next → b ≠ this → h'.get b = h.get b := by
  induction fuel with
  | zero =>
      intro h h' this orig hcp
      cases hcp
  | succ fuel ih =>
      intro h h' this orig hcp
      rw [cp] at hcp
      split at hcp
      · cases hcp
      · next o _ =>
          dsimp only at hcp
          split at hcp
          · cases hcp
          · next h₁ hleft =>
              have hl : h.next ≤ h₁.next ∧
                  ∀ b, b < h.next → b ≠ this → h₁.get b = h.get b := by
                split at hleft
                · next l _ =>
                    obtain ⟨hle, hframe⟩ := ih hleft
                    refine ⟨Nat.le_of_succ_le hle, fun b hb hne => ?_⟩
                    rw [hframe b (Nat.lt_succ_of_lt hb) (Nat.ne_of_lt hb)]
                    exact newLeft_of_lt hne hb
                · injection hleft with hleft
                  rw [← hleft]
                  refine ⟨le_rfl, fun b _ hne => ?_⟩
                  rw [Heap.get_modify_of_ne hne, copyMembers_of_ne hne]
              split at hcp
              · next r _ =>
                  obtain ⟨hle, hframe⟩ := ih hcp
                  refine ⟨le_trans hl.1 (Nat.le_of_succ_le hle),
                    fun b hb hne => ?_⟩
                  have hb₁ : b < h₁.next := lt_of_lt_of_le hb hl.1
                  rw [hframe b (Nat.lt_succ_of_lt hb₁) (Nat.ne_of_lt hb₁),
                    newRight_of_lt hne hb₁]
                  exact hl.2 b hb hne
              · injection hcp with hcp
                rw [← hcp]
                refine ⟨hl.1, fun b hb hne => ?_⟩
                rw [Heap.get_modify_of_ne hne]
                exact hl.2 b hb hne

/-- The left pointer of the node itself is followed for ever. -/
theorem cp_selfLinked (fuel : ℕ) : ∀ {h : Heap Node} {this orig : ℕ} {o : Node},
    h.get orig = some o → o.leftchild = some orig → this ≠ orig →
    cp fuel h this orig = none := by
  induction fuel with
  | zero => exact fun _ _ _ => rfl
  | succ fuel ih =>
      intro h this orig o ho hself hne
      have hlt := Heap.lt_of_get ho
      rw [cp, ho]
      dsimp only
      rw [hself]
      dsimp only
      have ho' : (newLeft (copyMembers h this o) this).get orig = some o :=
        (newLeft_of_lt hne.symm hlt).trans ho
      have hnew : (copyMembers h this o).next ≠ orig := Nat.ne_of_gt hlt
      rw [ih ho' hself hnew]

/-- What the copy of a binary operator does: the left child, then the
right. -/
theorem cp_binary (fuel : ℕ) {o : Node} (ho : h.get a = some o)
    {l r : ℕ} (hl : o.leftchild = some l) (hr : o.rightchild = some r) :
    cp (fuel + 1) h this a =
      (cp fuel (newLeft (copyMembers h this o) this) h.next l).bind fun h₁ =>
        cp fuel (newRight h₁ this) h₁.next r := by
  rw [cp, ho]
  dsimp only
  rw [hl, hr, copyMembers_next]
  dsimp only
  cases cp fuel (newLeft (copyMembers h this o) this) h.next l with
  | none => rfl
  | some h₁ => rfl

/-- What the right side of a copy leaves alone: the cells that are there, but
for the right pointer of the copy itself. -/
theorem cp_right {fuel : ℕ} {o n : Node} {h₁ : Heap Node}
    (hn : h₁.get this = some n)
    (hcp : (match o.rightchild with
      | some r => cp fuel (newRight h₁ this) h₁.next r
      | none => some (h₁.modify this fun n => { n with rightchild := none })) =
        some h') :
    (∃ r, h'.get this = some { n with rightchild := r }) ∧
      ∀ b, b < h₁.next → b ≠ this → h'.get b = h₁.get b := by
  have hlt := Heap.lt_of_get hn
  cases hr : o.rightchild with
  | none =>
      rw [hr] at hcp
      injection hcp with hcp
      rw [← hcp]
      refine ⟨⟨none, ?_⟩, fun b _ hne => Heap.get_modify_of_ne hne⟩
      rw [Heap.get_modify_self, hn]
      rfl
  | some r =>
      rw [hr] at hcp
      obtain ⟨_, hframe⟩ := cp_frame fuel hcp
      refine ⟨⟨some h₁.next, ?_⟩, fun b hb hne => ?_⟩
      · rw [hframe this (Nat.lt_succ_of_lt hlt) (Nat.ne_of_lt hlt)]
        exact newRight_this hn
      · rw [hframe b (Nat.lt_succ_of_lt hb) (Nat.ne_of_lt hb)]
        exact newRight_of_lt hne hb

/-- The cell that is copied to: its parent is the original's, and its left
child is the next new cell, whose parent is that of the original's left
child. -/
theorem cp_this (fuel : ℕ) : ∀ {h h' : Heap Node} {this a : ℕ} {o n : Node},
    cp fuel h this a = some h' → h.get a = some o → h.get this = some n →
    ∃ n', h'.get this = some n' ∧ n'.parent = o.parent ∧
      ∀ l ln, o.leftchild = some l → h.get l = some ln → l ≠ this →
        n'.leftchild = some h.next ∧
          ∃ m, h'.get h.next = some m ∧ m.parent = ln.parent := by
  induction fuel with
  | zero =>
      intro h h' this a o n hcp
      cases hcp
  | succ fuel ih =>
      intro h h' this a o n hcp ho hn
      have hlt := Heap.lt_of_get hn
      have hcopied : (copyMembers h this o).get this = some
          { n with
            parent := o.parent
            isoperator := o.isoperator
            operatortype := o.operatortype
            operand := o.operand } := by
        rw [copyMembers, Heap.get_modify_self, hn]
        rfl
      rw [cp, ho] at hcp
      dsimp only at hcp
      cases hl : o.leftchild with
      | none =>
          rw [hl] at hcp
          dsimp only at hcp
          obtain ⟨⟨r, hthis⟩, _⟩ := cp_right (n := { n with
              parent := o.parent
              isoperator := o.isoperator
              operatortype := o.operatortype
              operand := o.operand
              leftchild := none })
            (by rw [Heap.get_modify_self, hcopied]; rfl) hcp
          exact ⟨_, hthis, rfl, fun l ln hl => (nomatch hl)⟩
      | some l =>
          rw [hl] at hcp
          dsimp only [copyMembers_next] at hcp
          cases hleft : cp fuel (newLeft (copyMembers h this o) this) h.next l with
          | none =>
              rw [hleft] at hcp
              cases hcp
          | some h₁ =>
              rw [hleft] at hcp
              obtain ⟨hle, hframe⟩ := cp_frame fuel hleft
              have hnew : (newLeft (copyMembers h this o) this).get h.next =
                  some Node.blank := by
                rw [newLeft, Heap.get_modify_of_ne (Nat.ne_of_gt hlt)]
                exact Heap.get_alloc_self
              have hthis₁ : h₁.get this = some
                  { n with
                    parent := o.parent
                    isoperator := o.isoperator
                    operatortype := o.operatortype
                    operand := o.operand
                    leftchild := some h.next } := by
                rw [hframe this (Nat.lt_succ_of_lt hlt) (Nat.ne_of_lt hlt),
                  newLeft_this hcopied]
                rfl
              obtain ⟨⟨r, hthis⟩, hrest⟩ := cp_right hthis₁ hcp
              refine ⟨_, hthis, rfl, fun l' ln hl' hln hne => ⟨rfl, ?_⟩⟩
              injection hl' with hl'
              subst hl'
              have hln' : (newLeft (copyMembers h this o) this).get l =
                  some ln :=
                (newLeft_of_lt hne (Heap.lt_of_get hln)).trans hln
              obtain ⟨m, hm, hparent, _⟩ := ih hleft hln' hnew
              refine ⟨m, ?_, hparent⟩
              rw [hrest h.next (Heap.lt_of_get hm) (Nat.ne_of_gt hlt)]
              exact hm

/-! ## Which trees are copied -/

/-- There is a unary operator in the tree. -/
def Tree.HasUnary : Tree → Prop
  | .operand _ _ => False
  | .unary _ _ _ => True
  | .binary _ _ left right => left.HasUnary ∨ right.HasUnary

/-- A subtree that is still to be copied is untouched, and its copy is no part
of it. -/
theorem cp_hasUnary (hu : t.HasUnary) : ∀ {fuel : ℕ} {h : Heap Node}
    {parent : Option ℕ} {this : ℕ}, Built h parent t → this ∉ t.addresses →
    this < h.next → cp fuel h this t.root = none := by
  induction t with
  | operand a value => exact hu.elim
  | unary a op right ih =>
      intro fuel h parent this hb hthis _
      obtain ⟨_, _, _, hcell⟩ := hb.unary
      exact cp_selfLinked fuel hcell rfl
        fun heq => hthis (heq ▸ List.mem_cons_self)
  | binary a op left right ihl ihr =>
      intro fuel h parent this hb hthis hlt
      obtain ⟨_, _, _, _, hl, hr, hcell⟩ := hb.binary
      rw [Tree.addresses, List.mem_cons, List.mem_append, not_or,
        not_or] at hthis
      obtain ⟨o, ho, hlc, hrc⟩ : ∃ o, h.get a = some o ∧
          o.leftchild = some left.root ∧ o.rightchild = some right.root :=
        ⟨_, hcell, rfl, rfl⟩
      cases fuel with
      | zero => rfl
      | succ fuel =>
          rw [Tree.root, cp_binary fuel ho hlc hrc]
          have hnext : ∀ b, b ∈ left.addresses ∨ b ∈ right.addresses →
              b ≠ this ∧ b < h.next := by
            rintro b (hb | hb)
            · exact ⟨fun heq => hthis.2.1 (heq ▸ hb), hl.holds.lt_next hb⟩
            · exact ⟨fun heq => hthis.2.2 (heq ▸ hb), hr.holds.lt_next hb⟩
          have hsame : ∀ b, b ∈ left.addresses ∨ b ∈ right.addresses →
              (newLeft (copyMembers h this o) this).get b = h.get b := by
            intro b hb
            obtain ⟨hne, hlt⟩ := hnext b hb
            exact newLeft_of_lt hne hlt
          rcases hu with hu | hu
          · rw [ihl hu (hl.of_agree fun b hb => hsame b (.inl hb))
              (fun hmem => Nat.lt_irrefl _ (hl.holds.lt_next hmem))
              (Nat.lt_succ_self _)]
            rfl
          · cases hcp : cp fuel (newLeft (copyMembers h this o) this) h.next
              left.root with
            | none => rfl
            | some h₁ =>
                obtain ⟨hle, hframe⟩ := cp_frame fuel hcp
                refine ihr hu (hr.of_agree fun b hb => ?_)
                  (fun hmem => ?_) (Nat.lt_succ_self _)
                · obtain ⟨hne, hlt⟩ := hnext b (.inr hb)
                  have hlt₁ : b < h₁.next :=
                    lt_of_lt_of_le (Nat.lt_succ_of_lt hlt) hle
                  rw [newRight_of_lt hne hlt₁,
                    hframe b (Nat.lt_succ_of_lt hlt) (Nat.ne_of_lt hlt)]
                  exact hsame b (.inr hb)
                · have hlt := (hnext _ (.inr hmem)).2
                  have hle' : h.next + 1 ≤ h₁.next := hle
                  omega

/-- The copy of an operand. -/
theorem copy_operand {value : Bytes}
    (ha : (h.alloc Node.blank).get a = some (Node.ofOperand parent value)) :
    ∃ h', copy 1 h a = some h' ∧
      h'.get h.next = some (Node.ofOperand parent value) := by
  refine ⟨((copyMembers (h.alloc Node.blank) h.next
      (Node.ofOperand parent value)).modify h.next
        (fun n => { n with leftchild := none })).modify h.next
        (fun n => { n with rightchild := none }), ?_, ?_⟩
  · rw [copy, cp, ha]
    rfl
  · rw [Heap.get_modify_self, Heap.get_modify_self, copyMembers,
      Heap.get_modify_self, Heap.get_alloc_self]
    rfl

/-- Without a unary operator a copy ends when there is fuel for the depth of
the tree. -/
theorem cp_ends (hu : ¬ t.HasUnary) : ∃ n, ∀ fuel, n ≤ fuel →
    ∀ {h : Heap Node} {parent : Option ℕ} {this : ℕ}, Built h parent t →
      this ∉ t.addresses → this < h.next →
      (cp fuel h this t.root).isSome := by
  induction t with
  | operand a value =>
      refine ⟨1, fun fuel hfuel h parent this hb _ _ => ?_⟩
      obtain ⟨fuel, rfl⟩ : ∃ f, fuel = f + 1 := ⟨fuel - 1, by omega⟩
      rw [Tree.root, cp, hb.operand]
      rfl
  | unary a op right ih => exact absurd trivial hu
  | binary a op left right ihl ihr =>
      obtain ⟨nl, hnl⟩ := ihl fun h => hu (.inl h)
      obtain ⟨nr, hnr⟩ := ihr fun h => hu (.inr h)
      refine ⟨max nl nr + 1, fun fuel hfuel h parent this hb hthis hlt => ?_⟩
      obtain ⟨fuel, rfl⟩ : ∃ f, fuel = f + 1 := ⟨fuel - 1, by omega⟩
      obtain ⟨_, _, _, _, hl, hr, hcell⟩ := hb.binary
      rw [Tree.addresses, List.mem_cons, List.mem_append, not_or,
        not_or] at hthis
      obtain ⟨o, ho, hlc, hrc⟩ : ∃ o, h.get a = some o ∧
          o.leftchild = some left.root ∧ o.rightchild = some right.root :=
        ⟨_, hcell, rfl, rfl⟩
      have hsame : ∀ b, b ≠ this → b < h.next →
          (newLeft (copyMembers h this o) this).get b = h.get b :=
        fun b hne hlt => newLeft_of_lt hne hlt
      have hleft := hnl fuel (by omega)
        (hl.of_agree fun b hb => hsame b (fun heq => hthis.2.1 (heq ▸ hb))
          (hl.holds.lt_next hb))
        (fun hmem => Nat.lt_irrefl _ (hl.holds.lt_next hmem))
        (Nat.lt_succ_self h.next)
      obtain ⟨h₁, hcp⟩ := Option.isSome_iff_exists.mp hleft
      obtain ⟨hle, hframe⟩ := cp_frame fuel hcp
      have hle' : h.next + 1 ≤ h₁.next := hle
      rw [Tree.root, cp_binary fuel ho hlc hrc, hcp]
      refine hnr fuel (by omega) (hr.of_agree fun b hb => ?_)
        (fun hmem => ?_) (Nat.lt_succ_self _)
      · have hb' := hr.holds.lt_next hb
        have hne : b ≠ this := fun heq => hthis.2.2 (heq ▸ hb)
        rw [newRight_of_lt hne (by omega),
          hframe b (Nat.lt_succ_of_lt hb') (Nat.ne_of_lt hb')]
        exact hsame b hne hb'
      · have hb' := hr.holds.lt_next hmem
        omega

/-- Copying comes to an end exactly for the trees without a unary operator. -/
theorem copy_ends_iff (hb : Built h parent t) :
    (∃ fuel, (copy fuel h t.root).isSome) ↔ ¬ t.HasUnary := by
  have hblank : Built (h.alloc Node.blank) parent t :=
    hb.of_agree fun b hb' =>
      Heap.get_alloc_of_ne (Nat.ne_of_lt (hb.holds.lt_next hb'))
  constructor
  · rintro ⟨fuel, hsome⟩ hu
    rw [copy, cp_hasUnary hu hblank
      (fun hmem => Nat.lt_irrefl _ (hb.holds.lt_next hmem))
      (Nat.lt_succ_self _)] at hsome
    cases hsome
  · intro hu
    obtain ⟨n, hn⟩ := cp_ends hu
    exact ⟨n, hn n le_rfl hblank
      (fun hmem => Nat.lt_irrefl _ (hb.holds.lt_next hmem))
      (Nat.lt_succ_self _)⟩

/-- A query tree is copied as it should be if and only if it is a single
operand. -/
theorem copied_iff_operand (h : Heap Node) (parent : Option ℕ) (t : Tree)
    (hb : Built h parent t) :
    Copied h t ↔ ∃ this value, t = .operand this value := by
  have hroot : t.root < h.next := hb.holds.lt_next (root_mem t)
  have hblank : Built (h.alloc Node.blank) parent t :=
    hb.of_agree fun b hb' =>
      Heap.get_alloc_of_ne (Nat.ne_of_lt (hb.holds.lt_next hb'))
  constructor
  · rintro ⟨fuel, h', parent', t', hcopy, hat, hb', hsame, _⟩
    cases t with
    | operand this value => exact ⟨this, value, rfl⟩
    | unary this op right =>
        rw [copy, cp_hasUnary (t := .unary this op right) trivial hblank
          (fun hmem => Nat.lt_irrefl _ (hb.holds.lt_next hmem))
          (Nat.lt_succ_self _)] at hcopy
        cases hcopy
    | binary this op left right =>
        obtain ⟨_, _, _, _, hl, _, hcell⟩ := hblank.binary
        obtain ⟨ln, hln, hlparent⟩ := hl.root_parent
        have hne : left.root ≠ h.next := by
          have hlt := hb.binary.2.2.2.2.1.holds.lt_next (root_mem left)
          omega
        obtain ⟨n, hn, _, hleft⟩ := cp_this fuel hcopy hcell Heap.get_alloc_self
        obtain ⟨hchild, m, hm, hparent⟩ := hleft _ ln rfl hln hne
        cases t' with
        | operand a value => exact hsame.elim
        | unary a op' r' => exact hsame.elim
        | binary a op' l' r' =>
            obtain ⟨_, _, _, _, hl', _, hcell'⟩ := hb'.binary
            obtain ⟨m', hm', hparent'⟩ := hl'.root_parent
            have ha : a = h.next := hat
            subst ha
            rw [hn] at hcell'
            injection hcell' with hcell'
            rw [hcell'] at hchild
            injection hchild with hchild
            rw [hchild] at hm'
            have hmm : m = m' := by
              have heq := hm.symm.trans hm'
              injection heq
            rw [← hmm, hparent, hlparent] at hparent'
            injection hparent' with hparent'
            have hroot' : this < h.next := hroot
            omega
  · rintro ⟨this, value, rfl⟩
    have hcell := hblank.operand
    have hcopy := copy_operand hcell
    obtain ⟨h', hcopy, hget⟩ := hcopy
    refine ⟨1, h', parent, .operand h.next value, hcopy, rfl,
      ⟨fun c hc => ?_, trivial, List.nodup_singleton _⟩, rfl, fun a ha => ?_⟩
    · rw [Tree.cells, List.mem_singleton] at hc
      subst hc
      exact hget
    · rw [Tree.addresses, List.mem_singleton] at ha ⊢
      have hroot' : this < h.next := hroot
      omega

/-- An operand alone. -/
theorem parameter_copied :
    Copied (Heap.ofList ((Tree.operand 0 (integerOperand 1#64)).cells none))
      (.operand 0 (integerOperand 1#64)) :=
  (copied_iff_operand _ none _
    (exists_built (t := .operand 0 (integerOperand 1#64)) none trivial
      (List.nodup_singleton 0))).mpr ⟨0, _, rfl⟩

/-- The copy of `-1` never ends. -/
theorem negation_not_copied :
    Built (Heap.ofList ((Tree.unary 0 .negation
      (.operand 1 (integerOperand 1#64))).cells none)) none
      (.unary 0 .negation (.operand 1 (integerOperand 1#64))) ∧
    ¬ Copied (Heap.ofList ((Tree.unary 0 .negation
      (.operand 1 (integerOperand 1#64))).cells none))
      (.unary 0 .negation (.operand 1 (integerOperand 1#64))) := by
  have hb := exists_built (t := .unary 0 .negation
    (.operand 1 (integerOperand 1#64))) none ⟨rfl, trivial⟩ (by decide)
  refine ⟨hb, ?_⟩
  rintro ⟨fuel, h', _, _, hcopy, _⟩
  have hends := (copy_ends_iff hb).mp ⟨fuel, by rw [hcopy]; rfl⟩
  exact hends trivial

end Infinisql.Asts
