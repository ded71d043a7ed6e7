import AttributeStore.Holder.Basic

/-!
# The pool of holders

Maps, callers and events share holders, so they refer to them by identifiers, and the holders
themselves stand in a pool.  The pool only grows, and what changes in it is flags.
-/

namespace AttributeStore

/-- The identity of a holder: its place in the pool. -/
structure HolderId where
  /-- The number of holders that were made before. -/
  index : Nat
deriving DecidableEq

/-- All holders ever made, in the order of their making. -/
structure Pool where
  /-- The holders. -/
  holders : Array Holder

namespace Pool

/-- The pool before the first holder is made. -/
def empty : Pool := ⟨#[]⟩

variable (p : Pool)

/-- The number of holders. -/
def size : Nat := p.holders.size

/-- The present state of a holder. -/
def holder (id : HolderId) : Holder := p.holders.getD id.index default

/-- The identifier that the next holder will have. -/
def nextId : HolderId := ⟨p.size⟩

/-- Makes a holder, which gets the identifier `nextId`. -/
def add (h : Holder) : Pool := ⟨p.holders.push h⟩

/-- Applies a change to one holder. -/
def modify (id : HolderId) (change : Holder → Holder) : Pool :=
  ⟨p.holders.modify id.index change⟩

/-- Closes the lock of a holder. -/
def lock (id : HolderId) : Pool := p.modify id Holder.lock

/-- Permits the export of the value of a holder. -/
def markPersistable (id : HolderId) : Pool := p.modify id Holder.markPersistable

theorem holder_add_of_lt (h : Holder) {id : HolderId} (hid : id.index < p.size) :
    (p.add h).holder id = p.holder id := by
  simp only [size] at hid
  simp [holder, add, Array.getD_eq_getD_getElem?, Array.getElem?_push, Nat.ne_of_lt hid]

@[simp]
theorem holder_add_nextId (h : Holder) : (p.add h).holder p.nextId = h := by
  simp [holder, add, nextId, size, Array.getD_eq_getD_getElem?]

@[simp]
theorem size_add (h : Holder) : (p.add h).size = p.size + 1 := by
  simp [size, add]

@[simp]
theorem size_modify (id : HolderId) (change : Holder → Holder) :
    (p.modify id change).size = p.size := by
  simp [size, modify]

theorem holder_modify_of_ne (change : Holder → Holder) {id id' : HolderId} (hne : id' ≠ id) :
    (p.modify id change).holder id' = p.holder id' := by
  have hindex : id.index ≠ id'.index := fun h => hne (by cases id; cases id'; simp_all)
  simp [holder, modify, Array.getD_eq_getD_getElem?, Array.getElem?_modify, hindex]

theorem holder_modify_self (change : Holder → Holder) {id : HolderId}
    (hid : id.index < p.size) : (p.modify id change).holder id = change (p.holder id) := by
  simp only [size] at hid
  simp [holder, modify, Array.getD_eq_getD_getElem?, Array.getElem_modify, hid]

end Pool

end AttributeStore
