import Infinisql.Proofs.ExpressionTrees

/-!
# The walk that resolves field names

`resolveFieldNames` has no stack: it goes by the position and by the direction
it has come from, and finds its way up by the parent links. What keeps it from
going round in circles is that it enters each subtree once, from above, and
leaves it once, upwards; in between it stays inside. So the lemma that carries
the proof is about one subtree under whatever is above it: after some rounds
the walk is at the parent, coming from the side the subtree is on, or it has
returned false at the first identifier that is no field.

An identifier is left in the round that finds it, any other operand after two
rounds on the spot, and a unary operator takes the pointer to itself for a
left side that is done. No round writes to a cell other than that of an
identifier, so the links that lead back are those the walk has come by.
-/

namespace Infinisql.Asts

open Infinisql.Ref Infinisql.Lib

variable {names : FieldNames} {tableid : Int} {h h' : Heap Node}
  {parent : Option ℕ} {this a fuel : ℕ} {op : Operatortype} {t : Tree} {n : Node}

/-! ## Rounds -/

theorem getfieldid_eq (name : Bytes) :
    (getfieldid names tableid name = -1 ∧ ¬ IsField names tableid name) ∨
    ∃ ref fid, names tableid = some ref ∧ ref name = some fid ∧
      getfieldid names tableid name = fid := by
  unfold getfieldid
  split
  · next hnone =>
      refine .inl ⟨rfl, ?_⟩
      rintro ⟨ref, fid, href, _⟩
      rw [hnone] at href
      cases href
  · next ref href =>
      split
      · next hnone =>
          refine .inl ⟨rfl, ?_⟩
          rintro ⟨ref', fid, href', hfid⟩
          rw [href] at href'
          injection href' with href'
          rw [← href', hnone] at hfid
          cases hfid
      · next fid hfid => exact .inr ⟨ref, fid, href, hfid, rfl⟩

/-- Where the walk goes on when a subtree is done. -/
def resume (names : FieldNames) (tableid : Int) (fuel : ℕ) (h : Heap Node)
    (root : ℕ) : Option ℕ → Option WalkResult
  | none => some (.returned h true)
  | some p => walk names tableid fuel h p
      (if (h.get p).bind Node.leftchild = some root then .fromLeft
        else .fromRight)

/-- A round at a node that is no identifier. -/
theorem walk_round {d : Direction} (hn : h.get a = some n)
    (hid : ¬ (n.isoperator = false ∧
      operandType n.operand = operandIdentifier)) :
    walk names tableid (fuel + 1) h a d =
      proceed (walk names tableid fuel) (walkSwitch h a n d) := by
  rw [walk, walkStep, hn]
  dsimp only
  rw [if_neg hid]

/-- A round at a node that is done. -/
theorem walkSwitch_fromRight (hp : n.parent = parent)
    (hthere : ∀ p, parent = some p → (h.get p).isSome) :
    proceed (walk names tableid fuel) (walkSwitch h a n .fromRight) =
      resume names tableid fuel h a parent := by
  rw [walkSwitch, hp]
  cases parent with
  | none => rfl
  | some p =>
      obtain ⟨pn, hpn⟩ := Option.isSome_iff_exists.mp (hthere p rfl)
      dsimp only
      rw [resume, hpn, Option.bind_some]
      dsimp only
      by_cases hleft : pn.leftchild = some a
      · rw [if_pos hleft, if_pos hleft]
        rfl
      · rw [if_neg hleft, if_neg hleft]
        rfl

theorem identifiers_sub (t : Tree) : ∀ a ∈ t.identifiers.map Prod.fst,
    a ∈ t.addresses := by
  induction t with
  | operand this value =>
      intro a ha
      rw [Tree.identifiers] at ha
      split at ha
      · exact ha
      · cases ha
  | unary this op right ih =>
      exact fun a ha => List.mem_cons_of_mem this (ih a ha)
  | binary this op left right ihl ihr =>
      intro a ha
      rw [Tree.identifiers, List.map_append] at ha
      refine List.mem_cons_of_mem this (List.mem_append.mpr ?_)
      rcases List.mem_append.mp ha with ha | ha
      · exact .inl (ihl a ha)
      · exact .inr (ihr a ha)

/-! ## Subtrees -/

/-- What walking a subtree comes to: no cell but those of its identifiers is
written to, and either all of them are fields and the walk goes on above, or
one is not and the walk has returned false. -/
def Walks (names : FieldNames) (tableid : Int) (h : Heap Node)
    (parent : Option ℕ) (t : Tree) : Prop :=
  ∃ n h', (∀ a, a ∉ t.identifiers.map Prod.fst → h'.get a = h.get a) ∧
    (((∀ i ∈ t.identifiers, IsField names tableid i.2) ∧
        Resolved names tableid t h h' ∧
        ∀ fuel, walk names tableid (n + fuel) h t.root .fromAbove =
          resume names tableid fuel h' t.root parent) ∨
      ((¬ ∀ i ∈ t.identifiers, IsField names tableid i.2) ∧
        ∀ fuel, walk names tableid (n + fuel) h t.root .fromAbove =
          some (.returned h' false)))

theorem walks_operand {value : Bytes} (hb : Built h parent (.operand a value))
    (hthere : ∀ p, parent = some p → (h.get p).isSome ∧ p ≠ a) :
    Walks names tableid h parent (.operand a value) := by
  have hcell := hb.operand
  by_cases hid : operandType value = operandIdentifier
  · have hids : Tree.identifiers (.operand a value) = [(a, value.drop 1)] :=
      if_pos hid
    have hcases : (getfieldid names tableid (value.drop 1) = -1 ∧
          ¬ IsField names tableid (value.drop 1)) ∨
        ∃ ref fid, names tableid = some ref ∧
          ref (value.drop 1) = some fid ∧
          getfieldid names tableid (value.drop 1) = fid :=
      getfieldid_eq (value.drop 1)
    rcases hcases with ⟨hfid, hno⟩ | ⟨ref, fid, href, hname, hfid⟩
    · refine ⟨1, h, fun _ _ => rfl, .inr ⟨fun hall => hno ?_, fun fuel => ?_⟩⟩
      · exact hall (a, value.drop 1) (by rw [hids]; exact List.mem_cons_self)
      · rw [Nat.add_comm, walk, Tree.root, walkStep, hcell]
        dsimp only
        rw [if_pos ⟨rfl, hid⟩, if_pos hfid]
        rfl
    · have hfid' : getfieldid names tableid (value.drop 1) ≠ -1 := by
        rw [hfid]
        omega
      refine ⟨1, h.modify a (Node.setOperand (fieldidOperand fid)),
        fun b hb => ?_, .inl ⟨fun i hi => ?_, ⟨fun i hi => ?_, fun b hb => ?_⟩,
          fun fuel => ?_⟩⟩
      · rw [hids] at hb
        exact Heap.get_modify_of_ne fun heq => hb (heq ▸ List.mem_cons_self)
      · rw [hids, List.mem_singleton] at hi
        rw [hi]
        exact ⟨ref, fid, href, hname⟩
      · rw [hids, List.mem_singleton] at hi
        rw [hi]
        refine ⟨ref, fid, _, href, hname, hcell, ?_⟩
        rw [Heap.get_modify_self, hcell]
        rfl
      · rw [hids] at hb
        exact Heap.get_modify_of_ne fun heq => hb (heq ▸ List.mem_cons_self)
      · rw [Nat.add_comm, walk, Tree.root, walkStep, hcell]
        dsimp only
        rw [if_pos ⟨rfl, hid⟩, if_neg hfid', hfid]
        refine walkSwitch_fromRight rfl fun p hp => ?_
        obtain ⟨hsome, hne⟩ := hthere p hp
        rw [Heap.get_modify_of_ne hne]
        exact hsome
  · have hids : Tree.identifiers (.operand a value) = [] := if_neg hid
    have hno : ¬ (false = false ∧ operandType value = operandIdentifier) :=
      fun h => hid h.2
    refine ⟨3, h, fun _ _ => rfl, .inl ⟨fun i hi => ?_, ⟨fun i hi => ?_,
      fun _ _ => rfl⟩, fun fuel => ?_⟩⟩
    · rw [hids] at hi
      cases hi
    · rw [hids] at hi
      cases hi
    · have hfuel : 3 + fuel = fuel + 1 + 1 + 1 := by omega
      rw [hfuel, Tree.root, walk_round hcell hno, walkSwitch]
      dsimp only [proceed]
      rw [walk_round hcell hno, walkSwitch]
      dsimp only [proceed]
      rw [walk_round hcell hno]
      exact walkSwitch_fromRight rfl fun p hp => (hthere p hp).1
/-- The way through a unary operator: on the spot, into its operand, and
up. -/
theorem walks_unary {right : Tree}
    (hb : Built h parent (.unary a op right))
    (hthere : ∀ p, parent = some p → (h.get p).isSome ∧
      p ∉ (Tree.unary a op right).addresses)
    (hright : ∀ h, Built h (some a) right → (∀ p, some a = some p →
      (h.get p).isSome ∧ p ∉ right.addresses) →
      Walks names tableid h (some a) right) :
    Walks names tableid h parent (.unary a op right) := by
  obtain ⟨_, hnot, hr, hcell⟩ := hb.unary
  obtain ⟨n, h₁, hframe, hres⟩ := hright h hr fun p hp => by
    injection hp with hp
    rw [← hp, hcell]
    exact ⟨rfl, hnot⟩
  have hkept : ∀ b, b ∉ right.addresses → h₁.get b = h.get b :=
    fun b hb => hframe b fun hid => hb (identifiers_sub right b hid)
  have hcell₁ := (hkept a hnot).trans hcell
  have henter : ∀ fuel, walk names tableid (n + (fuel + 1) + 1 + 1) h a
      .fromAbove =
        walk names tableid (n + (fuel + 1)) h right.root .fromAbove := by
    intro fuel
    rw [walk_round hcell (by simp), walkSwitch]
    dsimp only
    rw [if_pos rfl]
    dsimp only [proceed]
    rw [walk_round hcell (by simp)]
    rfl
  have hsum : ∀ fuel, n + 3 + fuel = n + (fuel + 1) + 1 + 1 := by
    intro fuel
    omega
  refine ⟨n + 3, h₁, hframe, ?_⟩
  rcases hres with ⟨hall, hresolved, hwalk⟩ | ⟨hno, hwalk⟩
  · refine .inl ⟨hall, ⟨hresolved.identifier, hresolved.other⟩,
      fun fuel => ?_⟩
    rw [hsum, Tree.root, henter, hwalk, resume, hcell₁]
    dsimp only [Option.bind_some]
    have hne : some a ≠ some right.root := by
      intro heq
      injection heq with heq
      exact hnot (heq ▸ root_mem right)
    rw [if_neg hne, walk_round hcell₁ (by simp)]
    refine walkSwitch_fromRight rfl fun p hp => ?_
    obtain ⟨hsome, hout⟩ := hthere p hp
    rw [hkept p fun hmem => hout (List.mem_cons_of_mem a hmem)]
    exact hsome
  · refine .inr ⟨hno, fun fuel => ?_⟩
    rw [hsum, Tree.root, henter]
    exact hwalk (fuel + 1)

/-- The way through a binary operator: down the left side, back to it, down
the right side, back, and up. -/
theorem walks_binary {left right : Tree}
    (hb : Built h parent (.binary a op left right))
    (hthere : ∀ p, parent = some p → (h.get p).isSome ∧
      p ∉ (Tree.binary a op left right).addresses)
    (hleft : ∀ h, Built h (some a) left → (∀ p, some a = some p →
      (h.get p).isSome ∧ p ∉ left.addresses) →
      Walks names tableid h (some a) left)
    (hright : ∀ h, Built h (some a) right → (∀ p, some a = some p →
      (h.get p).isSome ∧ p ∉ right.addresses) →
      Walks names tableid h (some a) right) :
    Walks names tableid h parent (.binary a op left right) := by
  obtain ⟨_, hnotl, hnotr, hdisj, hl, hr, hcell⟩ := hb.binary
  obtain ⟨n, h₁, hframe, hres⟩ := hleft h hl fun p hp => by
    injection hp with hp
    rw [← hp, hcell]
    exact ⟨rfl, hnotl⟩
  have hkept : ∀ b, b ∉ left.addresses → h₁.get b = h.get b :=
    fun b hb => hframe b fun hid => hb (identifiers_sub left b hid)
  have hcell₁ := (hkept a hnotl).trans hcell
  have hroot : left.root ≠ a := fun heq => hnotl (heq ▸ root_mem left)
  have henter : ∀ fuel, walk names tableid (fuel + 1) h a .fromAbove =
      walk names tableid fuel h left.root .fromAbove := by
    intro fuel
    rw [walk_round hcell (by simp), walkSwitch]
    dsimp only
    rw [if_neg hroot]
    rfl
  rcases hres with ⟨hall, hresolved, hwalk⟩ | ⟨hno, hwalk⟩
  · have hr₁ : Built h₁ (some a) right :=
      hr.of_agree fun b hb => hkept b fun hmem => hdisj b hmem hb
    obtain ⟨m, h₂, hframe₂, hres₂⟩ := hright h₁ hr₁ fun p hp => by
      injection hp with hp
      rw [← hp, hcell₁]
      exact ⟨rfl, hnotr⟩
    have hkept₂ : ∀ b, b ∉ right.addresses → h₂.get b = h₁.get b :=
      fun b hb => hframe₂ b fun hid => hb (identifiers_sub right b hid)
    have hcell₂ := (hkept₂ a hnotr).trans hcell₁
    have hout : ∀ b, b ∉ (Tree.binary a op left right).identifiers.map Prod.fst →
        h₂.get b = h.get b := by
      intro b hb
      rw [Tree.identifiers, List.map_append, List.mem_append, not_or] at hb
      rw [hframe₂ b hb.2, hframe b hb.1]
    have hsum : ∀ fuel, n + m + 3 + fuel =
        n + (m + (fuel + 1) + 1) + 1 := by
      intro fuel
      omega
    have hover : ∀ fuel, walk names tableid (n + (m + (fuel + 1) + 1) + 1) h a
        .fromAbove =
          walk names tableid (m + (fuel + 1)) h₁ right.root .fromAbove := by
      intro fuel
      rw [henter, hwalk, resume, hcell₁]
      dsimp only [Option.bind_some]
      rw [if_pos rfl, walk_round hcell₁ (by simp)]
      rfl
    refine ⟨n + m + 3, h₂, hout, ?_⟩
    rcases hres₂ with ⟨hall₂, hresolved₂, hwalk₂⟩ | ⟨hno₂, hwalk₂⟩
    · refine .inl ⟨fun i hi => ?_, ⟨fun i hi => ?_, hout⟩, fun fuel => ?_⟩
      · rcases List.mem_append.mp hi with hi | hi
        · exact hall i hi
        · exact hall₂ i hi
      · rcases List.mem_append.mp hi with hi | hi
        · obtain ⟨ref, fid, nd, href, hname, hget, hget₁⟩ :=
            hresolved.identifier i hi
          refine ⟨ref, fid, nd, href, hname, hget, ?_⟩
          have hmem := identifiers_sub left i.1 (List.mem_map_of_mem hi)
          rw [hkept₂ i.1 (hdisj i.1 hmem)]
          exact hget₁
        · obtain ⟨ref, fid, nd, href, hname, hget, hget₂⟩ :=
            hresolved₂.identifier i hi
          refine ⟨ref, fid, nd, href, hname, ?_, hget₂⟩
          have hmem := identifiers_sub right i.1 (List.mem_map_of_mem hi)
          rw [← hkept i.1 fun hl => hdisj i.1 hl hmem]
          exact hget
      · rw [hsum, Tree.root, hover, hwalk₂, resume, hcell₂]
        dsimp only [Option.bind_some]
        have hne : some left.root ≠ some right.root := by
          intro heq
          injection heq with heq
          exact hdisj _ (root_mem left) (heq ▸ root_mem right)
        rw [if_neg hne, walk_round hcell₂ (by simp)]
        refine walkSwitch_fromRight rfl fun p hp => ?_
        obtain ⟨hsome, hnotp⟩ := hthere p hp
        rw [Tree.addresses, List.mem_cons, List.mem_append, not_or,
          not_or] at hnotp
        rw [hkept₂ p hnotp.2.2, hkept p hnotp.2.1]
        exact hsome
    · refine .inr ⟨fun hall' => hno₂ fun i hi => ?_, fun fuel => ?_⟩
      · exact hall' i (List.mem_append_right _ hi)
      · rw [hsum, Tree.root, hover]
        exact hwalk₂ (fuel + 1)
  · refine ⟨n + 1, h₁, fun b hb => hframe b fun hmem => hb ?_,
      .inr ⟨fun hall => hno fun i hi => ?_, fun fuel => ?_⟩⟩
    · rw [Tree.identifiers, List.map_append]
      exact List.mem_append_left _ hmem
    · exact hall i (List.mem_append_left _ hi)
    · have hsum : n + 1 + fuel = n + fuel + 1 := by omega
      rw [hsum, Tree.root, henter]
      exact hwalk fuel

/-- The walk of a subtree, whatever it is and whatever is above it. -/
theorem walks (names : FieldNames) (tableid : Int) (t : Tree) :
    ∀ (h : Heap Node) (parent : Option ℕ), Built h parent t →
      (∀ p, parent = some p → (h.get p).isSome ∧ p ∉ t.addresses) →
      Walks names tableid h parent t := by
  induction t with
  | operand a value =>
      intro h parent hb hthere
      refine walks_operand hb fun p hp => ?_
      obtain ⟨hsome, hout⟩ := hthere p hp
      exact ⟨hsome, fun heq => hout (heq ▸ List.mem_cons_self)⟩
  | unary a op right ih =>
      exact fun h parent hb hthere =>
        walks_unary hb hthere fun h => ih h (some a)
  | binary a op left right ihl ihr =>
      exact fun h parent hb hthere =>
        walks_binary hb hthere (fun h => ihl h (some a))
          fun h => ihr h (some a)

/-- The walk over a query tree ends, with true exactly if each identifier is a
field of the table; then each of them has become the id of its field and no
other cell has changed. Whatever it returns, it writes to no cell but those of
identifiers. -/
theorem resolveFieldNames_resolves (names : FieldNames) (tableid : Int)
    (h : Heap Node) (t : Tree) (hb : Built h none t) :
    ∃ n h' result,
      (∀ fuel, n ≤ fuel → resolveFieldNames names tableid fuel h t.root =
        some (.returned h' result)) ∧
      (result = true ↔ ∀ i ∈ t.identifiers, IsField names tableid i.2) ∧
      (result = true → Resolved names tableid t h h') ∧
      ∀ a, a ∉ t.identifiers.map Prod.fst → h'.get a = h.get a := by
  obtain ⟨n, h', hframe, hres⟩ :=
    walks names tableid t h none hb fun p hp => (nomatch hp)
  rcases hres with ⟨hall, hresolved, hwalk⟩ | ⟨hno, hwalk⟩
  · refine ⟨n, h', true, fun fuel hfuel => ?_, ⟨fun _ => hall, fun _ => rfl⟩,
      fun _ => hresolved, hframe⟩
    obtain ⟨k, rfl⟩ := Nat.exists_eq_add_of_le hfuel
    exact hwalk k
  · refine ⟨n, h', false, fun fuel hfuel => ?_,
      ⟨fun heq => (nomatch heq), fun hall => absurd hall hno⟩,
      fun heq => (nomatch heq), hframe⟩
    obtain ⟨k, rfl⟩ := Nat.exists_eq_add_of_le hfuel
    exact hwalk k
/-- `NOT name = 5`, over a table whose only field has that name. -/
theorem resolves_not_eq : ∃ n h' result,
    (∀ fuel, n ≤ fuel → resolveFieldNames (fun _ => some fun _ => some 0) 1 fuel
      (Heap.ofList (Tree.cells none (.unary 0 .not (.binary 1 .eq
        (.operand 2 [98, 97]) (.operand 3 (integerOperand 5#64))))))
      0 = some (.returned h' result)) ∧
    (result = true ↔ ∀ i ∈ [(2, [97])],
      IsField (fun _ => some fun _ => some 0) 1 i.2) ∧
    (result = true → Resolved (fun _ => some fun _ => some 0) 1
      (.unary 0 .not (.binary 1 .eq (.operand 2 [98, 97])
        (.operand 3 (integerOperand 5#64))))
      (Heap.ofList (Tree.cells none (.unary 0 .not (.binary 1 .eq
        (.operand 2 [98, 97]) (.operand 3 (integerOperand 5#64)))))) h') ∧
    ∀ a, a ∉ [2] → h'.get a = (Heap.ofList (Tree.cells none (.unary 0 .not
      (.binary 1 .eq (.operand 2 [98, 97])
        (.operand 3 (integerOperand 5#64)))))).get a :=
  resolveFieldNames_resolves (fun _ => some fun _ => some 0) 1 _
    (.unary 0 .not (.binary 1 .eq (.operand 2 [98, 97])
      (.operand 3 (integerOperand 5#64))))
    (exists_built none ⟨rfl, rfl, trivial, trivial⟩ (by decide))

end Infinisql.Asts
