import RizzyVault.Client.Lists
import RizzyVault.Lib.Batches

/-!
# The order of a list after an edit

An edit removes elements of a list, adds new ones and moves others. The plan gives every new or
moved element a place strictly between its neighbours, and rewrites the places of the whole list
where no such place fits.

## Main definitions

* `ListMove`, `Slot`, `applyMoves`, `placeFrom`, `planWrites`, `planListOrder`: the plan.
* `splitOrderOps`: the operations of an edit.
* `moveIn`, `orderAfter`: the order asked for, by names.
* `Arranged`: a plan's order with its places.

## Main results

* `moved_applyMoves`: what a sequence of moves keeps of an order.
* `placeFrom_spec`: the places found ascend along the order.
* `planListOrder_spec`: what a plan says of every element.
* `splitOrderOps_spec`: the operations carry every write once, in order.

## References

* `crates/rizzy-client/src/lists.rs`.
-/

open RizzyVault.Core RizzyVault.Sync RizzyVault.Lib

namespace RizzyVault.Client.Lists

/-- Where a move puts an element. -/
inductive ListPlace
  | first
  | last
  | before (element : Bytes)
  | after (element : Bytes)
  deriving DecidableEq

/-- One move of an existing element. -/
structure ListMove where
  element : Bytes
  place : ListPlace
  deriving DecidableEq

/-- One element of the order after an edit: an existing element or the new one `newIndex`, with its
place, and whether it gets a new one. -/
structure Slot where
  element : Option Bytes
  newIndex : ℕ
  key : Option SortKey
  placed : Bool
  deriving DecidableEq

/-- The order of one edit of a list. -/
structure OrderPlan where
  newOrders : List SortKey
  writes : List ElementWrite
  rewritten : Bool
  deriving DecidableEq

/-! ### The operations of an edit -/

def maxWritesPerOp : ℕ := Limits.v1.writes

/-- Adds a write to the operation being filled. -/
def addToOps (acc : List (List ElementWrite) × List ElementWrite) (w : ElementWrite) :
    List (List ElementWrite) × List ElementWrite :=
  if acc.2.length = maxWritesPerOp then (acc.1 ++ [acc.2], [w]) else (acc.1, acc.2 ++ [w])

/-- The operations that fill up with `writes` in turn. -/
def fillOps (writes : List ElementWrite) : List (List ElementWrite) :=
  let (ops, current) := writes.foldl addToOps ([], [])
  if current.isEmpty then ops else ops ++ [current]

/-- The operations of an edit: the rewritten places and the other writes in one while they fit,
otherwise the places first, in operations of their own. -/
def splitOrderOps (rewrite writes : List ElementWrite) : List (List ElementWrite) :=
  if rewrite.length + writes.length ≤ maxWritesPerOp then
    if (rewrite ++ writes).isEmpty then [] else [rewrite ++ writes]
  else if writes.isEmpty then fillOps rewrite
  else fillOps rewrite ++ [writes]

theorem fillOps_eq (writes : List ElementWrite) :
    fillOps writes = batches (fun op _ => op.length = maxWritesPerOp) writes := by
  have hstep : addToOps = addToBatch fun op _ => op.length = maxWritesPerOp := by
    funext acc w
    unfold addToOps addToBatch
    by_cases hfull : acc.2.length = maxWritesPerOp
    · have hne : acc.2.isEmpty = false := by
        rw [List.isEmpty_eq_false_iff, ← List.length_pos_iff, hfull]
        decide
      simp [hfull, hne]
    · simp [hfull]
  rw [fillOps, batches, hstep]
  rfl

/-- Operations filled in turn lose no write, and each holds some, within the limit. -/
theorem fillOps_spec (writes : List ElementWrite) :
    (fillOps writes).flatten = writes ∧
      ∀ op ∈ fillOps writes, op ≠ [] ∧ op.length ≤ maxWritesPerOp := by
  rw [fillOps_eq]
  refine ⟨flatten_batches, forall_mem_batches (fun _ _ => ?_) fun op _ _ hle hnot => ?_⟩
  · rw [List.length_singleton]
    decide
  · rw [decide_eq_false_iff_not] at hnot
    rw [List.length_append, List.length_singleton]
    omega

/-- The operations carry every write once and in order, none is empty, and those that carry
rewritten places are within the limit. -/
theorem splitOrderOps_spec (rewrite writes : List ElementWrite) :
    (splitOrderOps rewrite writes).flatten = rewrite ++ writes ∧
      (∀ op ∈ splitOrderOps rewrite writes, op ≠ []) ∧
      ∃ within rest, splitOrderOps rewrite writes = within ++ rest ∧
        (∀ op ∈ within, op.length ≤ maxWritesPerOp) ∧
        (rest = [] ∨ rest = [writes] ∧ within.flatten = rewrite) := by
  obtain ⟨hflat, hops⟩ := fillOps_spec rewrite
  unfold splitOrderOps
  split_ifs with hfit hnone hnone
  · exact ⟨(List.isEmpty_iff.mp hnone).symm, by simp, [], [], rfl, by simp, .inl rfl⟩
  · refine ⟨by simp, fun op hop => ?_, [rewrite ++ writes], [], rfl, fun op hop => ?_, .inl rfl⟩
    · rw [List.mem_singleton.mp hop]
      exact fun h => hnone (List.isEmpty_iff.mpr h)
    · rw [List.mem_singleton.mp hop, List.length_append]
      exact hfit
  · refine ⟨?_, fun op hop => (hops op hop).1, fillOps rewrite, [], (List.append_nil _).symm,
      fun op hop => (hops op hop).2, .inl rfl⟩
    rw [hflat, List.isEmpty_iff.mp hnone, List.append_nil]
  · refine ⟨by simp [hflat], fun op hop => ?_, fillOps rewrite, [writes], rfl,
      fun op hop => (hops op hop).2, .inr ⟨rfl, hflat⟩⟩
    rcases List.mem_append.mp hop with hop | hop
    · exact (hops op hop).1
    · rw [List.mem_singleton.mp hop]
      exact fun h => hnone (List.isEmpty_iff.mpr h)

/-! ### The plan -/

/-- Whether the schema gives `list` an `order` attribute. -/
def hasOrder (isNfc : String → Bool) (list : Bytes) : Bool :=
  match FieldKeyRef.parse (elementKey list (keyName "00") (some attrOrder)) with
  | .error _ => false
  | .ok key =>
    match classify isNfc key with
    | .known spec => spec.expected = .sortKey
    | _ => false

/-- The index of the existing element `wanted`. -/
def position (order : List Slot) (wanted : Bytes) : Except EditError ℕ :=
  match order.findIdx? fun s => s.element = some wanted with
  | some i => .ok i
  | none => .error .unknownItem

/-- Where a move puts its element among the rest. -/
def placeIndex (rest : List Slot) (step : ListMove) : Except EditError ℕ :=
  match step.place with
  | .first => .ok 0
  | .last => .ok rest.length
  | .before other => if other = step.element then .error .invalidEdit else position rest other
  | .after other =>
    if other = step.element then .error .invalidEdit else (position rest other).map (· + 1)

/-- Takes the moved element out and puts it at its new place. -/
def applyMove (order : List Slot) (step : ListMove) : Except EditError (List Slot) := do
  let i ← position order step.element
  match order[i]? with
  | none => .error .internal
  | some slot => do
    let rest := order.eraseIdx i
    let j ← placeIndex rest step
    return rest.insertIdx j { slot with placed := true }

def applyMoves (order : List Slot) (moves : List ListMove) : Except EditError (List Slot) :=
  moves.foldlM applyMove order

/-- The lower bound of a place: the place before, and where nothing is above, at least the highest
place of the list's registers. -/
def lowerBound (lower upper : Option Bytes) (highest : Option SortKey) : Option Bytes :=
  match upper, lower, highest with
  | none, some l, some h => if l < h.bytes then some h.bytes else some l
  | none, none, some h => some h.bytes
  | _, lower, _ => lower

/-- Gives the placed slots of the order their places, left to right; none when the list must be
rewritten instead, which then replaces every place. -/
def placeFrom (highest : Option SortKey) (before : Option Slot) :
    List Slot → Except EditError (Option (List Slot))
  | [] => .ok (some [])
  | slot :: rest =>
    if !slot.placed then do
      let out ← placeFrom highest (some slot) rest
      return out.map (slot :: ·)
    else
      -- No place sorts after an element without one.
      if before.any fun s => s.key.isNone then .ok none
      else
        let lower := before.bind fun s => s.key.map SortKey.bytes
        let upper := (rest.find? fun s => !s.placed).bind fun s => s.key.map SortKey.bytes
        match sortKeyBetween (lowerBound lower upper highest) upper with
        | .ok key => do
          let slot := { slot with key := some key }
          let out ← placeFrom highest (some slot) rest
          return out.map (slot :: ·)
        | .error .noRoom | .error .notOrdered => .ok none
        | .error _ => .error .internal

/-- Enters one slot of the keyed order into the plan. -/
def planWrite (list : Bytes) (acc : List (Option SortKey) × List ElementWrite) (slot : Slot) :
    Except EditError (List (Option SortKey) × List ElementWrite) :=
  if !slot.placed then .ok acc
  else
    match slot.key with
    | none => .error .internal
    | some key =>
      match slot.element with
      | none =>
        if slot.newIndex < acc.1.length then .ok (acc.1.set slot.newIndex (some key), acc.2)
        else .error .internal
      | some element =>
        match FieldKeyRef.parse (elementKey list element (some attrOrder)) with
        | .ok field => .ok (acc.1, acc.2 ++ [(field, Value.sortKey key)])
        | .error _ => .error .internal

/-- The place of a new element, which every new element has. -/
def newOrder : Option SortKey → Except EditError SortKey
  | some key => .ok key
  | none => .error .internal

/-- The new elements' places and the existing elements' writes of a keyed order. -/
def planWrites (list : Bytes) (order : List Slot) (added : ℕ) :
    Except EditError (List SortKey × List ElementWrite) := do
  let (orders, writes) ← order.foldlM (planWrite list) (List.replicate added none, [])
  let orders ← orders.mapM newOrder
  return (orders, writes)

/-- The place a value holds, if it is one. -/
def placeOf (value : Value) : Option SortKey :=
  match ValueRef.decode value.bytes with
  | .ok (.sortKey payload) => (SortKey.fromSlice payload).toOption
  | _ => none

/-- The highest valid place among every register of the list. -/
def highestOrder (f : ItemFields) (list : Bytes) : Option SortKey :=
  ((elementKeys f list).flatMap Prod.snd).foldl (fun highest key =>
    if key.attr ≠ some attrOrder then highest
    else
      match (f.value key.text).bind placeOf with
      | none => highest
      | some place => if highest.all fun h => h.bytes < place.bytes then some place else highest)
    none

/-- The slot of an element displayed. -/
def slotOf (e : Option Value × ListElement) : Slot where
  element := some e.2.element
  newIndex := 0
  key := e.1.bind placeOf
  placed := false

/-- The slot of a new element. -/
def newSlot (i : ℕ) : Slot := ⟨none, i, none, true⟩

/-- The slots of the elements displayed without the removed ones. -/
def keptSlots (f : ItemFields) (list : Bytes) (removed : List Bytes) : List Slot :=
  ((displayedElements f list).filter fun e => !removed.contains e.2.element).map slotOf

/-- The order after the edit, before the moves: those with a place first, then the new elements,
then those without a place. -/
def orderBeforeMoves (f : ItemFields) (list : Bytes) (removed : List Bytes) (added : ℕ) :
    List Slot :=
  let kept := keptSlots f list removed
  (kept.filter fun s => s.key.isSome) ++ (List.range added).map newSlot ++
    kept.filter fun s => !s.key.isSome

/-- Gives every slot the next of the spread places. -/
def spread (order : List Slot) (keys : List SortKey) : List Slot :=
  List.zipWith (fun slot key => { slot with key := some key, placed := true }) order keys

/-- The plan of one edit of a list. A new item shows no fields. -/
def planListOrder (isNfc : String → Bool) (f : ItemFields) (list : Bytes) (removed : List Bytes)
    (added : ℕ) (moves : List ListMove) : Except EditError OrderPlan :=
  if added = 0 ∧ moves.isEmpty then .ok ⟨[], [], false⟩
  else if !hasOrder isNfc list then .error .invalidEdit
  else do
    let order ← applyMoves (orderBeforeMoves f list removed added) moves
    match ← placeFrom (highestOrder f list) none order with
    | some order =>
      let (newOrders, writes) ← planWrites list order added
      return ⟨newOrders, writes, false⟩
    | none =>
      match evenlySpaced order.length with
      | .error _ => .error .invalidEdit
      | .ok keys =>
        let (newOrders, writes) ← planWrites list (spread order keys) added
        return ⟨newOrders, writes, true⟩

/-! ### The order asked for -/

/-- What a slot stands for: an existing element, or the new one of an index. -/
abbrev SlotName := Bytes ⊕ ℕ

def Slot.name (s : Slot) : SlotName := s.element.elim (.inr s.newIndex) .inl

/-- `x` just before the first `y`. -/
def insertBefore (x y : SlotName) : List SlotName → List SlotName
  | [] => []
  | a :: l => if a = y then x :: a :: l else a :: insertBefore x y l

/-- `x` just after the first `y`. -/
def insertAfter (x y : SlotName) : List SlotName → List SlotName
  | [] => []
  | a :: l => if a = y then a :: x :: l else a :: insertAfter x y l

/-- One move of an order of names: the element is taken out and put at its place. -/
def moveIn (order : List SlotName) (step : ListMove) : List SlotName :=
  let x := .inl step.element
  let rest := order.eraseP (· = x)
  match step.place with
  | .first => x :: rest
  | .last => rest ++ [x]
  | .before other => insertBefore x (.inl other) rest
  | .after other => insertAfter x (.inl other) rest

theorem eraseP_append_cons {x : SlotName} {l r : List SlotName} (h : x ∉ l) :
    (l ++ x :: r).eraseP (· = x) = l ++ r := by
  induction l with
  | nil => simp
  | cons a l ih =>
    obtain ⟨hne, hnot⟩ := List.ne_and_not_mem_of_not_mem_cons h
    rw [List.cons_append, List.eraseP_cons_of_neg (by simpa using hne.symm), ih hnot]
    rfl

theorem insertIdx_length_append {α : Type*} {l r : List α} {x : α} :
    (l ++ r).insertIdx l.length x = l ++ x :: r := by
  induction l with
  | nil => rfl
  | cons a l ih => exact congrArg (a :: ·) ih

theorem insertBefore_append {x y : SlotName} {l r : List SlotName} (h : y ∉ l) :
    insertBefore x y (l ++ y :: r) = l ++ x :: y :: r := by
  induction l with
  | nil => exact if_pos rfl
  | cons a l ih =>
    obtain ⟨hne, hnot⟩ := List.ne_and_not_mem_of_not_mem_cons h
    rw [List.cons_append, insertBefore, if_neg hne.symm, ih hnot]
    rfl

theorem insertAfter_append {x y : SlotName} {l r : List SlotName} (h : y ∉ l) :
    insertAfter x y (l ++ y :: r) = l ++ y :: x :: r := by
  induction l with
  | nil => exact if_pos rfl
  | cons a l ih =>
    obtain ⟨hne, hnot⟩ := List.ne_and_not_mem_of_not_mem_cons h
    rw [List.cons_append, insertAfter, if_neg hne.symm, ih hnot]
    rfl

theorem Slot.name_eq_inl {s : Slot} {e : Bytes} : s.name = .inl e ↔ s.element = some e := by
  unfold Slot.name
  cases s.element <;> simp

theorem Slot.name_eq_inr {s : Slot} {i : ℕ} :
    s.name = .inr i ↔ s.element = none ∧ s.newIndex = i := by
  unfold Slot.name
  cases s.element <;> simp

/-- The slot found is the first of its element. -/
theorem position_eq_ok {order : List Slot} {e : Bytes} {i : ℕ} (h : position order e = .ok i) :
    ∃ l s r, order = l ++ s :: r ∧ l.length = i ∧ s.element = some e ∧
      .inl e ∉ l.map Slot.name := by
  unfold position at h
  split at h
  · rename_i j hj
    cases h
    obtain ⟨hlt, hfound, hfirst⟩ := List.findIdx?_eq_some_iff_getElem.mp hj
    refine ⟨order.take i, order[i], order.drop (i + 1), ?_, ?_, of_decide_eq_true hfound,
      fun hmem => ?_⟩
    · rw [← List.drop_eq_getElem_cons hlt, List.take_append_drop]
    · rw [List.length_take, Nat.min_eq_left hlt.le]
    · obtain ⟨s, hs, hname⟩ := List.mem_map.mp hmem
      obtain ⟨n, hn, rfl⟩ := List.mem_iff_getElem.mp hs
      rw [List.length_take] at hn
      refine hfirst n (by omega) ?_
      rw [List.getElem_take] at hname
      exact decide_eq_true (Slot.name_eq_inl.mp hname)
  · cases h

/-- A move takes a slot out and puts it, now placed, where the move says. -/
theorem applyMove_eq_ok {order order' : List Slot} {step : ListMove}
    (h : applyMove order step = .ok order') :
    ∃ l s r l' r', order = l ++ s :: r ∧ l ++ r = l' ++ r' ∧ s.element = some step.element ∧
      order' = l' ++ { s with placed := true } :: r' ∧
      order'.map Slot.name = moveIn (order.map Slot.name) step := by
  obtain ⟨i, hi, h⟩ := except_bind_eq_ok.mp h
  obtain ⟨l, s, r, rfl, rfl, hs, hfirst⟩ := position_eq_ok hi
  have hget : (l ++ s :: r)[l.length]? = some s := by simp
  have herase : (l ++ s :: r).eraseIdx l.length = l ++ r := by
    rw [List.eraseIdx_append_of_length_le le_rfl, Nat.sub_self]
    rfl
  have hname : s.name = .inl step.element := Slot.name_eq_inl.mpr hs
  have hmoved : ({ s with placed := true } : Slot).name = .inl step.element := hname
  have hrest : ((l ++ s :: r).map Slot.name).eraseP (· = .inl step.element) =
      (l ++ r).map Slot.name := by
    rw [List.map_append, List.map_cons, hname, eraseP_append_cons hfirst, List.map_append]
  simp only [hget, herase] at h
  obtain ⟨j, hj, h⟩ := except_bind_eq_ok.mp h
  cases h
  -- Where the place lies in the order without the slot, and that the names agree.
  suffices hplace : ∃ l' r', l ++ r = l' ++ r' ∧ l'.length = j ∧
      l'.map Slot.name ++ .inl step.element :: r'.map Slot.name =
        moveIn ((l ++ s :: r).map Slot.name) step by
    obtain ⟨l', r', heq, rfl, hnames⟩ := hplace
    have hinsert : (l ++ r).insertIdx l'.length { s with placed := true } =
        l' ++ { s with placed := true } :: r' := by
      rw [heq, insertIdx_length_append]
    refine ⟨l, s, r, l', r', rfl, heq, hs, hinsert, ?_⟩
    rw [hinsert, List.map_append, List.map_cons, hmoved, hnames]
  have hfound : ∀ {other : Bytes} {n : ℕ}, position (l ++ r) other = .ok n →
      ∃ l' t r', l ++ r = l' ++ t :: r' ∧ l'.length = n ∧ t.name = .inl other ∧
        .inl other ∉ l'.map Slot.name := by
    intro other n hn
    obtain ⟨l', t, r', heq, hlen, ht, hnot⟩ := position_eq_ok hn
    exact ⟨l', t, r', heq, hlen, Slot.name_eq_inl.mpr ht, hnot⟩
  unfold placeIndex at hj
  simp only [moveIn, hrest]
  cases hp : step.place with
  | first =>
    simp only [hp, Except.ok.injEq] at hj ⊢
    exact ⟨[], l ++ r, rfl, hj, rfl⟩
  | last =>
    simp only [hp, Except.ok.injEq] at hj ⊢
    exact ⟨l ++ r, [], (List.append_nil _).symm, hj, rfl⟩
  | before other =>
    simp only [hp] at hj ⊢
    split_ifs at hj
    obtain ⟨l', t, r', heq, hlen, ht, hnot⟩ := hfound hj
    refine ⟨l', t :: r', heq, hlen, ?_⟩
    rw [heq, List.map_append, List.map_cons, ht, insertBefore_append hnot]
  | after other =>
    simp only [hp] at hj ⊢
    split_ifs at hj
    cases hpos : position (l ++ r) other with
    | error e =>
      rw [hpos] at hj
      cases hj
    | ok n =>
      rw [hpos] at hj
      obtain rfl : n + 1 = j := Except.ok.inj hj
      obtain ⟨l', t, r', heq, rfl, ht, hnot⟩ := hfound hpos
      refine ⟨l' ++ [t], r', by rw [heq, List.append_assoc]; rfl, by simp, ?_⟩
      have hmap : (l ++ r).map Slot.name =
          l'.map Slot.name ++ .inl other :: r'.map Slot.name := by
        rw [heq, List.map_append, List.map_cons, ht]
      rw [hmap, insertAfter_append hnot, List.map_append, List.map_singleton, ht,
        List.append_assoc]
      rfl

/-- What moves keep of an order. -/
structure Moved (moves : List ListMove) (order order' : List Slot) : Prop where
  names : order'.map Slot.name = moves.foldl moveIn (order.map Slot.name)
  perm : (order'.map Slot.name).Perm (order.map Slot.name)
  unplaced : (order'.filter fun s => !s.placed).Sublist (order.filter fun s => !s.placed)
  moved : ∀ s ∈ order', s ∈ order ∨
    s.placed ∧ s.name ∈ order.map Slot.name ∧ ∃ step ∈ moves, s.element = some step.element

theorem moved_applyMove {order order' : List Slot} {step : ListMove}
    (h : applyMove order step = .ok order') : Moved [step] order order' := by
  obtain ⟨l, s, r, l', r', rfl, heq, hs, rfl, hnames⟩ := applyMove_eq_ok h
  have hperm : (l' ++ { s with placed := true } :: r').Perm ({ s with placed := true } :: (l ++ r)) := by
    rw [heq]
    exact List.perm_middle
  refine ⟨hnames, ?_, ?_, fun t ht => ?_⟩
  · refine (hperm.map _).trans ?_
    exact ((List.perm_middle (a := s)).map Slot.name).symm
  · have hout : ((l' ++ { s with placed := true } :: r').filter fun s => !s.placed) =
        (l ++ r).filter fun s => !s.placed := by
      rw [List.filter_append, List.filter_cons_of_neg (by simp), ← List.filter_append, heq]
    rw [hout]
    exact ((List.sublist_cons_self s r).append_left l).filter _
  · rcases List.mem_cons.mp (hperm.mem_iff.mp ht) with rfl | ht
    · refine .inr ⟨rfl, ?_, step, List.mem_singleton_self step, hs⟩
      exact List.mem_map.mpr ⟨s, List.mem_append_right _ List.mem_cons_self, rfl⟩
    · exact .inl (((List.sublist_cons_self s r).append_left l).subset ht)

theorem moved_applyMoves {order order' : List Slot} {moves : List ListMove}
    (h : applyMoves order moves = .ok order') : Moved moves order order' := by
  induction moves generalizing order with
  | nil =>
    obtain rfl : order = order' := Except.ok.inj h
    exact ⟨rfl, .refl _, .refl _, fun s hs => .inl hs⟩
  | cons step moves ih =>
    rw [applyMoves, List.foldlM_cons] at h
    obtain ⟨mid, hmid, hrest⟩ := except_bind_eq_ok.mp h
    have h₁ := moved_applyMove hmid
    have h₂ := ih hrest
    refine ⟨?_, h₂.perm.trans h₁.perm, h₂.unplaced.trans h₁.unplaced, fun s hs => ?_⟩
    · rw [h₂.names, h₁.names]
      rfl
    · rcases h₂.moved s hs with hs | ⟨hp, hname, step', hstep', he⟩
      · refine (h₁.moved s hs).imp_right ?_
        rintro ⟨hp, hname, step', hstep', he⟩
        rw [List.mem_singleton.mp hstep'] at he
        exact ⟨hp, hname, step, List.mem_cons_self, he⟩
      · exact .inr ⟨hp, h₁.perm.mem_iff.mp hname, step', List.mem_cons_of_mem _ hstep', he⟩

/-! ### The places found -/

section Places

variable (elementOf : SlotName → Bytes)

/-- What the list order sorts a slot by, none standing for a place behind all others. -/
def Slot.rank (s : Slot) : WithTop Bytes ×ₗ Bytes :=
  toLex (s.key.elim ⊤ fun key => (key.bytes : WithTop Bytes), elementOf s.name)

variable {elementOf}

theorem rank_lt_of_key_lt {s t : Slot} {k : SortKey} (hs : s.key = some k)
    (ht : ∀ u ∈ t.key, k.bytes < u.bytes) : s.rank elementOf < t.rank elementOf := by
  rw [Slot.rank, Slot.rank, Prod.Lex.toLex_lt_toLex, hs]
  left
  cases hu : t.key with
  | none => exact WithTop.coe_lt_top _
  | some u => exact WithTop.coe_lt_coe.mpr (ht u hu)

/-- The raised bound is at least the one before. -/
theorem le_lowerBound (l : Bytes) (upper : Option Bytes) (highest : Option SortKey) :
    ∃ b ∈ lowerBound (some l) upper highest, l ≤ b := by
  unfold lowerBound
  split
  · rename_i l' h heq
    cases heq
    split_ifs with hlt
    · exact ⟨_, rfl, hlt.le⟩
    · exact ⟨_, rfl, le_rfl⟩
  · rename_i heq
    cases heq
  · rename_i heq _ _
    exact ⟨_, rfl, le_rfl⟩

/-- The slots that keep their place, ascending; the places found lie between them. -/
theorem placeFrom_spec {highest : Option SortKey} {before : Option Slot} {order out : List Slot}
    (hkept : (order.filter fun s => !s.placed).Pairwise fun s t =>
      s.rank elementOf < t.rank elementOf)
    (hbefore : ∀ b ∈ before, ∀ u ∈ order.find? fun s => !s.placed,
      b.rank elementOf < u.rank elementOf)
    (h : placeFrom highest before order = .ok (some out)) :
    (before.toList ++ out).IsChain (fun s t => s.rank elementOf < t.rank elementOf) ∧
      out.map Slot.name = order.map Slot.name ∧
      ∀ t ∈ out, ∃ s ∈ order, s.name = t.name ∧ s.placed = t.placed ∧ (!s.placed → s = t) := by
  induction order generalizing before out with
  | nil =>
    cases h
    refine ⟨?_, rfl, by simp⟩
    cases before <;> simp
  | cons slot rest ih =>
    cases hplaced : slot.placed with
    | false =>
      have hkeep : (!slot.placed) = true := by rw [hplaced]; rfl
      rw [List.filter_cons_of_pos (p := fun s : Slot => !s.placed) hkeep,
        List.pairwise_cons] at hkept
      rw [List.find?_cons_of_pos (p := fun s : Slot => !s.placed) hkeep] at hbefore
      simp only [placeFrom, hplaced] at h
      obtain ⟨out', hout', h⟩ := except_bind_eq_ok.mp h
      cases out' with
      | none => cases h
      | some out' =>
        cases h
        have hnext : ∀ b ∈ some slot, ∀ u ∈ rest.find? fun s => !s.placed,
            b.rank elementOf < u.rank elementOf := by
          rintro b ⟨⟩ u hu
          have hunplaced := List.find?_some (p := fun s : Slot => !s.placed) hu
          exact hkept.1 u (List.mem_filter.mpr ⟨List.mem_of_find?_eq_some hu, hunplaced⟩)
        obtain ⟨hchain, hnames, hback⟩ := ih hkept.2 hnext hout'
        refine ⟨?_, congrArg (slot.name :: ·) hnames, fun t ht => ?_⟩
        · cases before with
          | none => exact hchain
          | some b => exact List.isChain_cons_cons.mpr ⟨hbefore b rfl slot rfl, hchain⟩
        · rcases List.mem_cons.mp ht with rfl | ht
          · exact ⟨t, List.mem_cons_self, rfl, rfl, fun _ => rfl⟩
          · obtain ⟨s, hs, h⟩ := hback t ht
            exact ⟨s, List.mem_cons_of_mem _ hs, h⟩
    | true =>
      have hdrop : ¬ (!slot.placed) = true := by rw [hplaced]; simp
      rw [List.filter_cons_of_neg (p := fun s : Slot => !s.placed) hdrop] at hkept
      rw [List.find?_cons_of_neg (p := fun s : Slot => !s.placed) hdrop] at hbefore
      simp only [placeFrom, hplaced, Bool.not_true, Bool.false_eq_true, if_false] at h
      split_ifs at h with hnone
      · cases h
      split at h
      · rename_i key hkey
        obtain ⟨out', hout', h⟩ := except_bind_eq_ok.mp h
        cases out' with
        | none => cases h
        | some out' =>
          cases h
          obtain ⟨hlower, hupper⟩ := sortKeyBetween_spec hkey
          have hnext : ∀ b ∈ some { slot with key := some key, placed := true },
              ∀ u ∈ rest.find? fun s => !s.placed, b.rank elementOf < u.rank elementOf := by
            rintro b ⟨⟩ u hu
            refine rank_lt_of_key_lt rfl fun k hk => hupper k.bytes ?_
            rw [Option.mem_def.mp hu, Option.bind_some, Option.mem_def.mp hk]
            rfl
          obtain ⟨hchain, hnames, hback⟩ := ih hkept hnext hout'
          refine ⟨?_, congrArg (slot.name :: ·) hnames, fun t ht => ?_⟩
          · cases before with
            | none => exact hchain
            | some b =>
              refine List.isChain_cons_cons.mpr ⟨?_, hchain⟩
              -- The slot before has a place, and the one found lies above it.
              obtain ⟨k, hk⟩ : ∃ k, b.key = some k := by
                cases hk : b.key with
                | none => exact absurd (by simp [hk]) hnone
                | some k => exact ⟨k, rfl⟩
              refine rank_lt_of_key_lt hk ?_
              rintro u ⟨⟩
              obtain ⟨bound, hbound, hle⟩ := le_lowerBound k.bytes
                ((rest.find? fun s => !s.placed).bind fun s => s.key.map SortKey.bytes) highest
              refine hle.trans_lt (hlower bound ?_)
              rw [Option.bind_some, hk]
              exact hbound
          · rcases List.mem_cons.mp ht with rfl | ht
            · exact ⟨slot, List.mem_cons_self, rfl, hplaced, fun h => absurd h hdrop⟩
            · obtain ⟨s, hs, h⟩ := hback t ht
              exact ⟨s, List.mem_cons_of_mem _ hs, h⟩
      · cases h
      · cases h
      · cases h

end Places

/-! ### The writes of a plan -/

/-- The write that gives a placed slot of an existing element its place. -/
def WriteOf (list : Bytes) (s : Slot) (w : ElementWrite) : Prop :=
  s.placed ∧ ∃ e key, s.element = some e ∧ s.key = some key ∧
    w.1.text = elementKey list e (some attrOrder) ∧ w.2 = Value.sortKey key

/-- What the slots of an order enter into a plan. -/
structure PlanOf (list : Bytes) (order : List Slot)
    (acc acc' : List (Option SortKey) × List ElementWrite) : Prop where
  length : acc'.1.length = acc.1.length
  writes : ∀ w, w ∈ acc'.2 ↔ w ∈ acc.2 ∨ ∃ s ∈ order, WriteOf list s w
  written : ∀ s ∈ order, s.placed → s.element ≠ none → ∃ w ∈ acc'.2, WriteOf list s w
  keyed : ∀ s ∈ order, s.placed → s.key.isSome
  others : ∀ i, .inr i ∉ order.map Slot.name → acc'.1[i]? = acc.1[i]?
  new : ∀ s ∈ order, s.placed → s.element = none → acc'.1[s.newIndex]? = some s.key

theorem planOf_planWrite {list : Bytes} {s : Slot}
    {acc acc' : List (Option SortKey) × List ElementWrite} (h : planWrite list acc s = .ok acc') :
    PlanOf list [s] acc acc' := by
  unfold planWrite at h
  cases hplaced : s.placed with
  | false =>
    simp only [hplaced, Bool.not_false, if_true] at h
    cases h
    exact ⟨rfl, by simp [WriteOf, hplaced], by simp [hplaced], by simp [hplaced], fun _ _ => rfl,
      by simp [hplaced]⟩
  | true =>
    simp only [hplaced, Bool.not_true, Bool.false_eq_true, if_false] at h
    cases hkey : s.key with
    | none =>
      rw [hkey] at h
      cases h
    | some key =>
      cases he : s.element with
      | none =>
        simp only [hkey, he] at h
        split_ifs at h with hlt
        cases h
        refine ⟨List.length_set, by simp [WriteOf, he], by simp [he], by simp [hkey],
          fun i hi => ?_, ?_⟩
        · have hne : s.newIndex ≠ i := fun heq => hi
            (List.mem_singleton.mpr (Slot.name_eq_inr.mpr ⟨he, heq⟩).symm)
          exact List.getElem?_set_ne hne
        · intro t ht _ _
          rw [List.mem_singleton.mp ht, hkey, List.getElem?_set_self hlt]
      | some element =>
        simp only [hkey, he] at h
        split at h
        · rename_i field hfield
          cases h
          have hwrite : WriteOf list s (field, Value.sortKey key) :=
            ⟨hplaced, element, key, he, hkey, FieldKeyRef.parse_eq_ok.mp hfield, rfl⟩
          refine ⟨rfl, fun w => ?_, fun t ht _ _ => ?_, by simp [hkey], fun _ _ => rfl,
            by simp [he]⟩
          swap
          · rw [List.mem_singleton.mp ht]
            exact ⟨_, List.mem_append_right _ List.mem_cons_self, hwrite⟩
          rw [List.mem_append, List.mem_singleton]
          refine or_congr_right ⟨?_, ?_⟩
          · rintro rfl
            exact ⟨s, List.mem_cons_self, hwrite⟩
          · rintro ⟨t, ht, -, e, k, he', hk, htext, hvalue⟩
            obtain rfl := List.mem_singleton.mp ht
            obtain rfl := Option.some.inj (he.symm.trans he')
            obtain rfl := Option.some.inj (hkey.symm.trans hk)
            refine Prod.ext (FieldKeyRef.ext ?_) hvalue
            rw [htext, FieldKeyRef.parse_eq_ok.mp hfield]
        · cases h

theorem planOf_foldlM {list : Bytes} {order : List Slot}
    {acc acc' : List (Option SortKey) × List ElementWrite} (hnd : (order.map Slot.name).Nodup)
    (h : order.foldlM (planWrite list) acc = .ok acc') : PlanOf list order acc acc' := by
  induction order generalizing acc with
  | nil =>
    obtain rfl : acc = acc' := Except.ok.inj h
    exact ⟨rfl, by simp, by simp, by simp, fun _ _ => rfl, by simp⟩
  | cons s order ih =>
    rw [List.foldlM_cons] at h
    obtain ⟨mid, hmid, hrest⟩ := except_bind_eq_ok.mp h
    rw [List.map_cons, List.nodup_cons] at hnd
    have h₁ := planOf_planWrite hmid
    have h₂ := ih hnd.2 hrest
    refine ⟨h₂.length.trans h₁.length, fun w => ?_, fun t ht hp he => ?_, fun t ht => ?_,
      fun i hi => ?_, fun t ht hp he => ?_⟩
    · rw [h₂.writes, h₁.writes]
      simp only [List.mem_singleton, exists_eq_left, List.exists_mem_cons_iff, or_assoc]
    · rcases List.mem_cons.mp ht with rfl | ht
      · obtain ⟨w, hw, hwrite⟩ := h₁.written t List.mem_cons_self hp he
        exact ⟨w, (h₂.writes w).mpr (.inl hw), hwrite⟩
      · exact h₂.written t ht hp he
    · rcases List.mem_cons.mp ht with rfl | ht
      · exact h₁.keyed t List.mem_cons_self
      · exact h₂.keyed t ht
    · rw [List.map_cons, List.mem_cons, not_or] at hi
      rw [h₂.others i hi.2, h₁.others i (by simpa using hi.1)]
    · rcases List.mem_cons.mp ht with rfl | ht
      · have hname : t.name = .inr t.newIndex := Slot.name_eq_inr.mpr ⟨he, rfl⟩
        rw [h₂.others t.newIndex (hname ▸ hnd.1)]
        exact h₁.new t List.mem_cons_self hp he
      · exact h₂.new t ht hp he

/-- What a plan gives the slots of its order. -/
structure PlanGives (list : Bytes) (order : List Slot) (added : ℕ) (newOrders : List SortKey)
    (planned : List ElementWrite) : Prop where
  length : newOrders.length = added
  keyed : ∀ s ∈ order, s.placed → s.key.isSome
  writes : ∀ w, w ∈ planned ↔ ∃ s ∈ order, WriteOf list s w
  written : ∀ s ∈ order, s.placed → s.element ≠ none → ∃ w ∈ planned, WriteOf list s w
  new : ∀ s ∈ order, s.placed → s.element = none → newOrders[s.newIndex]? = s.key

theorem mapM_newOrder {orders : List (Option SortKey)} {keys : List SortKey}
    (h : orders.mapM newOrder = .ok keys) : orders = keys.map some := by
  have hall := mapM_eq_ok_forall₂ h
  clear h
  induction hall with
  | nil => rfl
  | @cons order key _ _ horder _ ih =>
    cases order with
    | none => cases horder
    | some order =>
      cases horder
      rw [ih, List.map_cons]

theorem planGives_planWrites {list : Bytes} {order : List Slot} {added : ℕ}
    {newOrders : List SortKey} {writes : List ElementWrite} (hnd : (order.map Slot.name).Nodup)
    (h : planWrites list order added = .ok (newOrders, writes)) :
    PlanGives list order added newOrders writes := by
  obtain ⟨⟨orders, ws⟩, hfold, h⟩ := except_bind_eq_ok.mp h
  obtain ⟨news, hnews, h⟩ := except_bind_eq_ok.mp h
  cases h
  have hplan := planOf_foldlM hnd hfold
  have hall := mapM_newOrder hnews
  refine ⟨?_, hplan.keyed, fun w => by simpa using hplan.writes w, hplan.written,
    fun s hs hp he => ?_⟩
  · have := hplan.length
    rwa [hall, List.length_map, List.length_replicate] at this
  · have := hplan.new s hs hp he
    rw [hall, List.getElem?_map, Option.map_eq_some_iff] at this
    obtain ⟨k, hk, hkey⟩ := this
    rw [hk, hkey]

/-! ### The order before the moves -/

section Displayed

variable {f : ItemFields} {list : Bytes} {removed : List Bytes}

/-- Whether the `order` an element displays is a place. -/
def hasPlace (f : ItemFields) (list element : Bytes) : Bool :=
  ((orderOf f list element).bind placeOf).isSome

/-- The elements an edit leaves, in list order. -/
def keptElements (f : ItemFields) (list : Bytes) (removed : List Bytes) : List Bytes :=
  ((listElements f list).map ListElement.element).filter fun e => !removed.contains e

/-- The order after an edit: the elements it leaves that have a place, the new ones, the elements
without a place, then each move in turn. -/
def orderAfter (f : ItemFields) (list : Bytes) (removed : List Bytes) (added : ℕ)
    (moves : List ListMove) : List SlotName :=
  let kept := keptElements f list removed
  moves.foldl moveIn
    ((kept.filter fun e => hasPlace f list e).map .inl ++ (List.range added).map .inr ++
      (kept.filter fun e => !hasPlace f list e).map .inl)

theorem sortKey_entryOf (e : Option Value × ListElement) :
    (entryOf e).sortKey = (e.1.bind placeOf).map SortKey.bytes := by
  obtain ⟨order, element⟩ := e
  cases order with
  | none => rfl
  | some value =>
    rw [Option.bind_some]
    simp only [ListEntry.sortKey, entryOf, Option.map_some, placeOf]
    cases hdecode : ValueRef.decode value.bytes with
    | error e => rfl
    | ok ref =>
      cases ref with
      | sortKey payload =>
        have hvalid := (ValueRef.decode_eq_sortKey.mp hdecode).1
        have hslice : SortKey.fromSlice payload = .ok ⟨payload, hvalid⟩ :=
          (⟨payload, hvalid⟩ : SortKey).fromSlice_bytes
        simp only [hslice]
        rfl
      | _ => rfl

/-- An element displayed comes with the value its `order` displays. -/
theorem mem_displayedElements {e : Option Value × ListElement} (h : e ∈ displayedElements f list) :
    Shows f list e.2.element ∧ e.1 = orderOf f list e.2.element := by
  obtain ⟨es, -, hmem, heq⟩ := displayedElements_spec f list
  rw [heq, List.mem_insertionSort, List.mem_map] at h
  obtain ⟨x, hx, rfl⟩ := h
  exact ⟨(hmem x).mp hx, rfl⟩

theorem nodup_displayedElements (f : ItemFields) (list : Bytes) :
    ((displayedElements f list).map fun a => a.2.element).Nodup := by
  obtain ⟨es, hnd, -, heq⟩ := displayedElements_spec f list
  rw [heq, ((List.perm_insertionSort _ _).map _).nodup_iff, List.map_map]
  rwa [Function.comp_def, List.map_id']

/-- The elements displayed ascend strictly. -/
theorem pairwise_displayedElements (f : ItemFields) (list : Bytes) :
    (displayedElements f list).Pairwise fun a b => (entryOf a).rank < (entryOf b).rank := by
  obtain ⟨es, -, -, heq⟩ := displayedElements_spec f list
  let le : Option Value × ListElement → Option Value × ListElement → Prop := fun a b =>
    (compareListEntries (entryOf a) (entryOf b)).isLE
  have hle : ∀ {a b}, le a b ↔ (entryOf a).rank ≤ (entryOf b).rank := isLE_compareListEntries
  have : Std.Total le := ⟨fun a b => by rw [hle, hle]; exact le_total _ _⟩
  have : IsTrans _ le := ⟨fun a b c => by rw [hle, hle, hle]; exact le_trans⟩
  have hsorted : (displayedElements f list).Pairwise le := heq ▸ List.pairwise_insertionSort le _
  have hne := List.pairwise_map.mp (nodup_displayedElements f list)
  refine hsorted.imp₂ (fun a b hab hne => ?_) hne
  exact lt_of_le_of_ne (hle.mp hab) fun heq => hne (congrArg Prod.snd (congrArg ofLex heq))

theorem mem_keptElements {e : Bytes} :
    e ∈ keptElements f list removed ↔ Shows f list e ∧ e ∉ removed := by
  have hshown : e ∈ (listElements f list).map ListElement.element ↔ Shows f list e := by
    rw [← shows_iff_any]
    simp
  rw [keptElements, List.mem_filter, hshown]
  simp

theorem nodup_keptElements : (keptElements f list removed).Nodup := by
  refine List.Nodup.filter _ ?_
  rw [listElements, List.map_map]
  exact nodup_displayedElements f list

variable {added : ℕ} {elementOf : SlotName → Bytes}

/-- The slot of an existing element. -/
def slotFor (f : ItemFields) (list element : Bytes) : Slot :=
  ⟨some element, 0, (orderOf f list element).bind placeOf, false⟩

theorem keptSlots_eq :
    keptSlots f list removed = (keptElements f list removed).map (slotFor f list) := by
  rw [keptElements, listElements, List.map_map, List.filter_map, List.map_map]
  refine List.map_congr_left fun e he => ?_
  have hshown := mem_displayedElements (List.mem_of_mem_filter he)
  rw [slotOf, hshown.2]
  rfl

theorem orderBeforeMoves_eq :
    orderBeforeMoves f list removed added =
      ((keptElements f list removed).filter fun e => hasPlace f list e).map (slotFor f list) ++
        (List.range added).map newSlot ++
          ((keptElements f list removed).filter fun e => !hasPlace f list e).map
            (slotFor f list) := by
  simp only [orderBeforeMoves, keptSlots_eq, List.filter_map]
  rfl

/-- The slots before the moves stand for the order before the moves. -/
theorem names_orderBeforeMoves :
    (orderBeforeMoves f list removed added).map Slot.name =
      ((keptElements f list removed).filter fun e => hasPlace f list e).map .inl ++
        (List.range added).map .inr ++
          ((keptElements f list removed).filter fun e => !hasPlace f list e).map .inl := by
  rw [orderBeforeMoves_eq]
  simp only [List.map_append, List.map_map]
  rfl

theorem mem_orderBeforeMoves {s : Slot} :
    s ∈ orderBeforeMoves f list removed added ↔
      (∃ e ∈ keptElements f list removed, s = slotFor f list e) ∨
        ∃ i < added, s = newSlot i := by
  simp only [orderBeforeMoves_eq, List.mem_append, List.mem_map, List.mem_filter, List.mem_range]
  constructor
  · rintro ((⟨e, ⟨he, -⟩, rfl⟩ | ⟨i, hi, rfl⟩) | ⟨e, ⟨he, -⟩, rfl⟩)
    · exact .inl ⟨e, he, rfl⟩
    · exact .inr ⟨i, hi, rfl⟩
    · exact .inl ⟨e, he, rfl⟩
  · rintro (⟨e, he, rfl⟩ | ⟨i, hi, rfl⟩)
    · cases hp : hasPlace f list e
      · exact .inr ⟨e, ⟨he, by rw [hp]; rfl⟩, rfl⟩
      · exact .inl (.inl ⟨e, ⟨he, hp⟩, rfl⟩)
    · exact .inl (.inr ⟨i, hi, rfl⟩)

theorem nodup_orderBeforeMoves :
    ((orderBeforeMoves f list removed added).map Slot.name).Nodup := by
  rw [names_orderBeforeMoves]
  have hinl : ∀ p : Bytes → Bool,
      (((keptElements f list removed).filter p).map (Sum.inl : Bytes → SlotName)).Nodup := fun p =>
    (nodup_keptElements.filter p).map Sum.inl_injective
  refine List.nodup_append.mpr ⟨List.nodup_append.mpr ⟨hinl _, ?_, ?_⟩, hinl _, ?_⟩
  · exact List.nodup_range.map Sum.inr_injective
  · rintro a ha b hb rfl
    obtain ⟨e, -, rfl⟩ := List.mem_map.mp ha
    obtain ⟨i, -, hi⟩ := List.mem_map.mp hb
    cases hi
  · rintro a ha b hb rfl
    obtain ⟨e, he, rfl⟩ := List.mem_map.mp hb
    have hnot := (List.mem_filter.mp he).2
    rcases List.mem_append.mp ha with ha | ha
    · obtain ⟨e', he', heq⟩ := List.mem_map.mp ha
      obtain rfl := Sum.inl_injective heq
      simp [(List.mem_filter.mp he').2] at hnot
    · obtain ⟨i, -, hi⟩ := List.mem_map.mp ha
      cases hi

/-- The slots of the elements kept ascend strictly. -/
theorem pairwise_keptElements (helement : ∀ e, elementOf (.inl e) = e) :
    (keptElements f list removed).Pairwise fun a b =>
      (slotFor f list a).rank elementOf < (slotFor f list b).rank elementOf := by
  have hrank : ∀ d ∈ displayedElements f list,
      (slotFor f list d.2.element).rank elementOf = (entryOf d).rank := by
    intro d hd
    rw [Slot.rank, ListEntry.rank, sortKey_entryOf, (mem_displayedElements hd).2]
    have hname : (slotFor f list d.2.element).name = .inl d.2.element := rfl
    rw [hname, helement, slotFor]
    cases (orderOf f list d.2.element).bind placeOf <;> rfl
  rw [keptElements, listElements, List.map_map]
  refine List.Pairwise.filter _ (List.pairwise_map.mpr ?_)
  refine (pairwise_displayedElements f list).imp_of_mem fun {a b} ha hb hlt => ?_
  rwa [Function.comp_apply, Function.comp_apply, hrank a ha, hrank b hb]

theorem pairwise_orderBeforeMoves (helement : ∀ e, elementOf (.inl e) = e) :
    ((orderBeforeMoves f list removed added).filter fun s => !s.placed).Pairwise fun s t =>
      s.rank elementOf < t.rank elementOf := by
  have hpart : ∀ p : Bytes → Bool, (((keptElements f list removed).filter p).map
      (slotFor f list)).Pairwise fun s t => s.rank elementOf < t.rank elementOf := fun p =>
    List.pairwise_map.mpr ((pairwise_keptElements helement).filter p)
  have hnew : ((List.range added).map newSlot).filter (fun s => !s.placed) = [] := by
    simp [newSlot]
  rw [orderBeforeMoves_eq, List.filter_append, List.filter_append, hnew, List.append_nil]
  refine List.pairwise_append.mpr ⟨(hpart _).filter _, (hpart _).filter _, fun s hs t ht => ?_⟩
  obtain ⟨a, ha, rfl⟩ := List.mem_map.mp (List.mem_of_mem_filter hs)
  obtain ⟨b, hb, rfl⟩ := List.mem_map.mp (List.mem_of_mem_filter ht)
  obtain ⟨k, hk⟩ := Option.isSome_iff_exists.mp (List.mem_filter.mp ha).2
  refine rank_lt_of_key_lt hk fun u hu => ?_
  have hnone := (List.mem_filter.mp hb).2
  have hsome : hasPlace f list b := Option.isSome_iff_exists.mpr ⟨u, hu⟩
  rw [hsome] at hnone
  cases hnone

/-! ### What a plan arranges -/

/-- The order after an edit, with the places the plan leaves or gives. -/
structure Arranged (elementOf : SlotName → Bytes) (f : ItemFields) (list : Bytes)
    (removed : List Bytes) (added : ℕ) (moves : List ListMove) (plan : OrderPlan)
    (out : List Slot) : Prop where
  names : out.map Slot.name = orderAfter f list removed added moves
  perm : (out.map Slot.name).Perm ((orderBeforeMoves f list removed added).map Slot.name)
  ascending : out.Pairwise fun s t => s.rank elementOf < t.rank elementOf
  gives : PlanGives list out added plan.newOrders plan.writes
  /-- A slot not placed is an element that keeps its place. -/
  kept : ∀ s ∈ out, !s.placed → ∃ e, s = slotFor f list e
  /-- Unless the list is rewritten, an element placed is one moved. -/
  moved : !plan.rewritten → ∀ s ∈ out, s.placed → ∀ e, s.element = some e →
    ∃ step ∈ moves, step.element = e

theorem pairwise_of_isChain {order : List Slot}
    (h : order.IsChain fun s t => s.rank elementOf < t.rank elementOf) :
    order.Pairwise fun s t => s.rank elementOf < t.rank elementOf := by
  have : IsTrans Slot fun s t => s.rank elementOf < t.rank elementOf :=
    ⟨fun _ _ _ => lt_trans⟩
  exact List.isChain_iff_pairwise.mp h

/-- Spread places ascend along the order, whatever was before. -/
theorem spread_spec (elementOf : SlotName → Bytes) {order : List Slot} {keys : List SortKey}
    (hlen : keys.length = order.length)
    (hkeys : keys.Pairwise fun a b => a.bytes < b.bytes) :
    (spread order keys).map Slot.name = order.map Slot.name ∧
      (∀ s ∈ spread order keys, s.placed ∧ ∃ k ∈ keys, s.key = some k) ∧
      (spread order keys).Pairwise fun s t => s.rank elementOf < t.rank elementOf := by
  induction order generalizing keys with
  | nil => exact ⟨by simp [spread], by simp [spread], by simp [spread]⟩
  | cons s order ih =>
    cases keys with
    | nil => cases hlen
    | cons key keys =>
      rw [List.pairwise_cons] at hkeys
      obtain ⟨hnames, hplaced, hasc⟩ := ih (Nat.succ.inj hlen) hkeys.2
      refine ⟨congrArg (s.name :: ·) hnames, fun t ht => ?_, List.pairwise_cons.mpr ⟨?_, hasc⟩⟩
      · rcases List.mem_cons.mp ht with rfl | ht
        · exact ⟨rfl, key, List.mem_cons_self, rfl⟩
        · obtain ⟨hp, k, hk, hkey⟩ := hplaced t ht
          exact ⟨hp, k, List.mem_cons_of_mem _ hk, hkey⟩
      · intro t ht
        obtain ⟨-, k, hk, hkey⟩ := hplaced t ht
        refine rank_lt_of_key_lt rfl fun u hu => ?_
        obtain rfl := Option.some.inj (hkey.symm.trans hu)
        exact hkeys.1 k hk

/-- What a plan arranges. -/
theorem planListOrder_spec (elementOf : SlotName → Bytes) {isNfc : String → Bool} {moves : List ListMove} {plan : OrderPlan}
    (helement : ∀ e, elementOf (.inl e) = e)
    (h : planListOrder isNfc f list removed added moves = .ok plan) :
    ∃ out, Arranged elementOf f list removed added moves plan out := by
  have hkept : ∀ order : List Slot, Moved moves (orderBeforeMoves f list removed added) order →
      ∀ s ∈ order, !s.placed → ∃ e, s = slotFor f list e := by
    intro order hmoved s hs hplaced
    have hsub := hmoved.unplaced.subset (List.mem_filter.mpr ⟨hs, hplaced⟩)
    rcases mem_orderBeforeMoves.mp (List.mem_of_mem_filter hsub) with ⟨e, -, rfl⟩ | ⟨i, -, rfl⟩
    · exact ⟨e, rfl⟩
    · cases hplaced
  have hmoves : ∀ order : List Slot, Moved moves (orderBeforeMoves f list removed added) order →
      ∀ s ∈ order, s.placed → ∀ e, s.element = some e → ∃ step ∈ moves, step.element = e := by
    intro order hmoved s hs hplaced e he
    rcases hmoved.moved s hs with hs | ⟨-, -, step, hstep, he'⟩
    · rcases mem_orderBeforeMoves.mp hs with ⟨e', -, rfl⟩ | ⟨i, -, rfl⟩
      · cases hplaced
      · cases he
    · exact ⟨step, hstep, Option.some.inj (he'.symm.trans he)⟩
  unfold planListOrder at h
  split_ifs at h with hempty horder
  · -- Nothing is added or moved.
    cases h
    obtain ⟨rfl, hnil⟩ := hempty
    obtain rfl := List.isEmpty_iff.mp hnil
    have hmoved : Moved [] (orderBeforeMoves f list removed 0)
      (orderBeforeMoves f list removed 0) := moved_applyMoves rfl
    have hall : ∀ s ∈ orderBeforeMoves f list removed 0, s.placed = false := by
      intro s hs
      rcases mem_orderBeforeMoves.mp hs with ⟨e, -, rfl⟩ | ⟨i, hi, -⟩
      · rfl
      · exact absurd hi (Nat.not_lt_zero i)
    have hno : ∀ s ∈ orderBeforeMoves f list removed 0, ¬ s.placed = true := fun s hs => by
      rw [hall s hs]
      exact Bool.false_ne_true
    have hself : (orderBeforeMoves f list removed 0).filter (fun s => !s.placed) =
        orderBeforeMoves f list removed 0 := by
      rw [List.filter_eq_self]
      exact fun s hs => by rw [hall s hs]; rfl
    refine ⟨orderBeforeMoves f list removed 0, ?_, .refl _, ?_, ⟨rfl, ?_, fun w => ?_, ?_, ?_⟩,
      hkept _ hmoved, fun _ => hmoves _ hmoved⟩
    · exact names_orderBeforeMoves
    · rw [← hself]
      exact pairwise_orderBeforeMoves helement
    · exact fun s hs hp => absurd hp (hno s hs)
    · refine iff_of_false List.not_mem_nil ?_
      rintro ⟨s, hs, hp, -⟩
      exact hno s hs hp
    · exact fun s hs hp => absurd hp (hno s hs)
    · exact fun s hs hp => absurd hp (hno s hs)
  · obtain ⟨order, happly, h⟩ := except_bind_eq_ok.mp h
    obtain ⟨found, hfound, h⟩ := except_bind_eq_ok.mp h
    have hmoved := moved_applyMoves happly
    have hafter : order.map Slot.name = orderAfter f list removed added moves := by
      rw [hmoved.names, names_orderBeforeMoves]
      rfl
    have hnd : (order.map Slot.name).Nodup := hmoved.perm.nodup_iff.mpr nodup_orderBeforeMoves
    cases found with
    | some out =>
      obtain ⟨⟨newOrders, writes⟩, hwrites, h⟩ := except_bind_eq_ok.mp h
      cases h
      obtain ⟨hchain, hnames, hback⟩ := placeFrom_spec
        ((pairwise_orderBeforeMoves helement).sublist hmoved.unplaced) (by simp) hfound
      rw [← hnames] at hafter hnd
      refine ⟨out, hafter, hnames ▸ hmoved.perm, pairwise_of_isChain hchain,
        planGives_planWrites hnd hwrites, fun t ht hp => ?_, fun _ t ht hp e he => ?_⟩
      · obtain ⟨s, hs, -, hplaced, hsame⟩ := hback t ht
        rw [← hplaced] at hp
        exact hsame hp ▸ hkept order hmoved s hs hp
      · obtain ⟨s, hs, hname, hplaced, -⟩ := hback t ht
        have he' := Slot.name_eq_inl.mp (hname.trans (Slot.name_eq_inl.mpr he))
        exact hmoves order hmoved s hs (hplaced ▸ hp) e he'
    | none =>
      cases hspread : evenlySpaced order.length with
      | error e =>
        simp only [hspread] at h
        cases h
      | ok keys =>
        simp only [hspread] at h
        obtain ⟨⟨newOrders, writes⟩, hwrites, h⟩ := except_bind_eq_ok.mp h
        cases h
        obtain ⟨hlen, hkeys⟩ := evenlySpaced_spec hspread
        obtain ⟨hnames, hplaced, hasc⟩ := spread_spec elementOf hlen hkeys
        rw [← hnames] at hafter hnd
        refine ⟨spread order keys, hafter, hnames ▸ hmoved.perm, hasc,
          planGives_planWrites hnd hwrites, fun s hs hp => ?_, fun h => by cases h⟩
        rw [(hplaced s hs).1] at hp
        cases hp

end Displayed

end RizzyVault.Client.Lists
