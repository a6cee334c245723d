namespace SharedSequence

/-- The identity of an allocated node is the position of its memo cell. -/
abbrev Cell := Nat

/-- The memo cells of all allocated nodes; zero stands for a hash that is not computed yet. -/
structure Store where
  memo : Array UInt32 := #[]

/-- Computations that allocate nodes and fill memo cells. -/
abbrev StoreM := StateM Store

namespace Store

/-- The hash held by a cell, if it has been computed. -/
def peek (store : Store) (cell : Cell) : Option UInt32 :=
  match store.memo[cell]? with
  | none => none
  | some hash => if hash = 0 then none else some hash

def record (store : Store) (cell : Cell) (hash : UInt32) : Store :=
  { store with memo := store.memo.setIfInBounds cell hash }

/-- Appends a cell that holds no hash yet. -/
def extend (store : Store) : Store :=
  { store with memo := store.memo.push 0 }

@[simp]
theorem peek_empty (cell : Cell) : peek {} cell = none := by
  simp [peek]

@[simp]
theorem record_empty (cell : Cell) (hash : UInt32) : record {} cell hash = {} := by
  simp [record]

end Store

def allocate : StoreM Cell :=
  modifyGet fun store => (store.memo.size, store.extend)

def recallHash (cell : Cell) : StoreM (Option UInt32) :=
  return (← get).peek cell

def rememberHash (cell : Cell) (hash : UInt32) : StoreM Unit :=
  modify (·.record cell hash)

/-- Copies a known hash into the cell of a node with the same elements. -/
def seed (cell : Cell) (hash? : Option UInt32) : StoreM Unit :=
  match hash? with
  | none => return
  | some hash => rememberHash cell hash

end SharedSequence
