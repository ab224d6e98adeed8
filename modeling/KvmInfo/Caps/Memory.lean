import KvmInfo.Library.Exec

namespace Caps
open Exec

abbrev Bytes := List UInt8

def cstr (s : String) : Bytes := s.toList.map (fun c => UInt8.ofNat c.toNat)

inductive Fault where
  | outOfBounds
  | nullDeref
  | badPointer
  | signedOverflow
  | outOfFuel
  deriving DecidableEq, Repr

def intMax : ℤ := 2 ^ 31 - 1

-- The block behind a struct kvm_msr_list pointer: `indices` are all the slots that fit in it.
structure MsrBlock where
  nmsrs : UInt32
  indices : List UInt32
  deriving DecidableEq, Repr

abbrev Ptr := ℕ

structure Heap where
  blocks : Ptr → Option MsrBlock
  next : Ptr
  calls : ℕ

structure Machine (W : Type) where
  world : W
  heap : Heap
  emitted : List Bytes

abbrev C (W α : Type) := Prog Fault (Machine W) α

section machine
variable {W : Type}

def Machine.withHeap (m : Machine W) (heap : Heap) : Machine W := { m with heap := heap }
def Machine.withWorld (m : Machine W) (world : W) : Machine W := { m with world := world }
def Machine.emit (m : Machine W) (cap : Bytes) : Machine W := { m with emitted := m.emitted ++ [cap] }

@[simp] theorem withHeap_world (m : Machine W) (h : Heap) : (m.withHeap h).world = m.world := rfl
@[simp] theorem withHeap_heap (m : Machine W) (h : Heap) : (m.withHeap h).heap = h := rfl
@[simp] theorem withHeap_emitted (m : Machine W) (h : Heap) : (m.withHeap h).emitted = m.emitted := rfl
@[simp] theorem withWorld_world (m : Machine W) (w : W) : (m.withWorld w).world = w := rfl
@[simp] theorem withWorld_heap (m : Machine W) (w : W) : (m.withWorld w).heap = m.heap := rfl
@[simp] theorem withWorld_emitted (m : Machine W) (w : W) : (m.withWorld w).emitted = m.emitted := rfl
@[simp] theorem emit_world (m : Machine W) (c : Bytes) : (m.emit c).world = m.world := rfl
@[simp] theorem emit_heap (m : Machine W) (c : Bytes) : (m.emit c).heap = m.heap := rfl
@[simp] theorem emit_emitted (m : Machine W) (c : Bytes) : (m.emit c).emitted = m.emitted ++ [c] := rfl

def incInt (i : ℤ) : C W ℤ := if i < intMax then pure (i + 1) else throw .signedOverflow

def deref {α : Type} (p : Option α) : C W α :=
  match p with
  | none => throw .nullDeref
  | some x => pure x

def load (p : Ptr) : C W MsrBlock := do
  match (← get).heap.blocks p with
  | none => throw .badPointer
  | some block => pure block

def Heap.set (h : Heap) (p : Ptr) (block : Option MsrBlock) : Heap :=
  { h with blocks := Function.update h.blocks p block }

def store (p : Ptr) (block : MsrBlock) : C W Unit := do
  let _ ← load p
  modify (fun m => m.withHeap (m.heap.set p (some block)))

def free (p : Ptr) : C W Unit := do
  let _ ← load p
  modify (fun m => m.withHeap (m.heap.set p none))

def readIndex (indices : List UInt32) (i : ℤ) : C W UInt32 :=
  if i < 0 then throw .outOfBounds
  else
    match indices[i.toNat]? with
    | none => throw .outOfBounds
    | some index => pure index

def writeIndex (indices : List UInt32) (i : ℤ) (index : UInt32) : C W (List UInt32) :=
  if i < 0 ∨ (indices.length : ℤ) ≤ i then throw .outOfBounds
  else pure (indices.set i.toNat index)

def sizeT (n : ℕ) : ℕ := n % 2 ^ 64

def msrSize (nmsrs : UInt32) : ℕ := max 1024 (sizeT (4 + nmsrs.toNat * 4))

def zeroBlock (size : ℕ) : MsrBlock := ⟨0,List.replicate ((size - 4) / 4) 0⟩

-- The n-th call of calloc succeeds when `succeeds n`.
def calloc (succeeds : ℕ → Bool) (size : ℕ) : C W (Option Ptr) := do
  let m ← get
  let p := m.heap.next
  if succeeds m.heap.calls then
    set (m.withHeap ⟨Function.update m.heap.blocks p (some (zeroBlock size)),p + 1,m.heap.calls + 1⟩)
    return some p
  else
    set (m.withHeap { m.heap with calls := m.heap.calls + 1 })
    return none

def kvmAllocMsrList (succeeds : ℕ → Bool) (nmsrs : UInt32) : C W (Option Ptr) := do
  match ← calloc succeeds (msrSize nmsrs) with
  | none => return none
  | some p =>
      let block ← load p
      store p { block with nmsrs := nmsrs }
      return some p

def freshBlock (nmsrs : UInt32) : MsrBlock := ⟨nmsrs,List.replicate (max 255 nmsrs.toNat) 0⟩

theorem msrSize_slots (nmsrs : UInt32) : (msrSize nmsrs - 4) / 4 = max 255 nmsrs.toNat := by
  have := nmsrs.toNat_lt
  unfold msrSize sizeT
  omega

theorem runs_incInt {i : ℤ} {m : Machine W} (h : i < intMax) : Runs (incInt i) m (i + 1) m := by
  rw [incInt,if_pos h]
  exact runs_pure

theorem runs_load {p : Ptr} {block : MsrBlock} {m : Machine W} (h : m.heap.blocks p = some block) :
    Runs (load p) m block m := by
  refine runs_get.bind ?_
  rw [h]
  exact runs_pure

theorem runs_store {p : Ptr} {old block : MsrBlock} {m : Machine W}
    (h : m.heap.blocks p = some old) :
    Runs (store p block) m () (m.withHeap (m.heap.set p (some block))) :=
  (runs_load h).bind runs_modify

theorem runs_free {p : Ptr} {block : MsrBlock} {m : Machine W} (h : m.heap.blocks p = some block) :
    Runs (free p) m () (m.withHeap (m.heap.set p none)) :=
  (runs_load h).bind runs_modify

theorem runs_readIndex {indices : List UInt32} {i : ℕ} {m : Machine W} (h : i < indices.length) :
    Runs (readIndex indices i) m indices[i] m := by
  simp only [readIndex,Int.toNat_natCast,List.getElem?_eq_getElem h]
  rw [if_neg (by omega)]
  exact runs_pure

theorem runs_writeIndex {indices : List UInt32} {i : ℕ} {index : UInt32} {m : Machine W}
    (h : i < indices.length) :
    Runs (writeIndex indices i index) m (indices.set i index) m := by
  rw [writeIndex,if_neg (by omega),Int.toNat_natCast]
  exact runs_pure

def Heap.failed (h : Heap) : Heap := { h with calls := h.calls + 1 }

def Heap.extended (h : Heap) (block : MsrBlock) : Heap :=
  ⟨Function.update h.blocks h.next (some block),h.next + 1,h.calls + 1⟩

@[simp] theorem extended_self (h : Heap) (block : MsrBlock) :
    (h.extended block).blocks h.next = some block := by
  simp [Heap.extended]

@[simp] theorem set_self (h : Heap) (p : Ptr) (block : Option MsrBlock) :
    (h.set p block).blocks p = block := by
  simp [Heap.set]

@[simp] theorem set_set (h : Heap) (p : Ptr) (b c : Option MsrBlock) :
    (h.set p b).set p c = h.set p c := by
  simp [Heap.set]

theorem runs_kvmAllocMsrList_ok {succeeds : ℕ → Bool} {nmsrs : UInt32} {m : Machine W}
    (h : succeeds m.heap.calls = true) :
    Runs (kvmAllocMsrList succeeds nmsrs) m (some m.heap.next)
      (m.withHeap (m.heap.extended (freshBlock nmsrs))) := by
  have hcalloc : Runs (calloc succeeds (msrSize nmsrs)) m (some m.heap.next)
      (m.withHeap (m.heap.extended (zeroBlock (msrSize nmsrs)))) := by
    refine runs_get.bind ?_
    rw [if_pos h]
    rfl
  have hset : (m.heap.extended (zeroBlock (msrSize nmsrs))).set m.heap.next
      (some (freshBlock nmsrs)) = m.heap.extended (freshBlock nmsrs) := by
    simp [Heap.set,Heap.extended]
  have hblock : { zeroBlock (msrSize nmsrs) with nmsrs := nmsrs } = freshBlock nmsrs := by
    simp [zeroBlock,freshBlock,msrSize_slots]
  refine hcalloc.bind ((runs_load (extended_self _ _)).bind ?_)
  rw [hblock]
  refine (runs_store (extended_self _ _)).bind ?_
  rw [← hset]
  exact runs_pure

theorem runs_kvmAllocMsrList_fail {succeeds : ℕ → Bool} {nmsrs : UInt32} {m : Machine W}
    (h : succeeds m.heap.calls = false) :
    Runs (kvmAllocMsrList succeeds nmsrs) m none (m.withHeap m.heap.failed) := by
  have hcalloc : Runs (calloc succeeds (msrSize nmsrs)) m none (m.withHeap m.heap.failed) := by
    refine runs_get.bind ?_
    rw [if_neg (by simp [h])]
    rfl
  exact hcalloc.bind runs_pure

end machine
end Caps
