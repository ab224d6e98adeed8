import KvmInfo.Caps.HeapBalance
import KvmInfo.Caps.MockFile

namespace Caps
open Exec Toml

def slot (files : Files) (fd : ℕ) : Option TomlTable := (files[fd]?).join

def slots (files : Files) : Finset ℕ :=
  (Finset.range MOCK_FILE_MAX).filter fun fd => slot files fd ≠ none

section slots
variable {files : Files} {fd : ℕ}

theorem slot_set (h : fd < MOCK_FILE_MAX) (file : Option TomlTable) :
    slot (files.set fd file h) = Function.update (slot files) fd file := by
  funext i
  rw [slot,Vector.getElem?_set,Function.update_apply]
  split_ifs with h1 h2 h2
  · rfl
  · exact absurd h1.symm h2
  · exact absurd h2.symm h1
  · rfl

theorem files_ext {files' : Files} (h : slot files = slot files') : files = files' := by
  apply Vector.ext
  intro i hi
  have hslot := congrFun h i
  rw [slot,slot,Vector.getElem?_eq_getElem hi,Vector.getElem?_eq_getElem hi] at hslot
  simpa using hslot

theorem mem_slots : fd ∈ slots files ↔ slot files fd ≠ none := by
  rw [slots,Finset.mem_filter,Finset.mem_range,and_iff_right_iff_imp]
  intro h
  by_contra hlt
  exact h (by rw [slot,Vector.getElem?_eq_none (not_lt.mp hlt)]; rfl)

theorem slots_update (h : fd < MOCK_FILE_MAX) (file : TomlTable) :
    slots (files.set fd (some file) h) = insert fd (slots files) := by
  ext i
  rw [mem_slots,Finset.mem_insert,mem_slots,slot_set h,Function.update_apply]
  split_ifs with hi <;> simp [hi]

theorem lowestFree_eq {fds : Finset ℕ} {n : ℕ} (hn : n ∉ fds) (hlt : ∀ j < n, j ∈ fds) :
    lowestFree fds = n := by
  have hcard : n ≤ fds.card := by
    have hsub : Finset.range n ⊆ fds := fun j hj => hlt j (Finset.mem_range.mp hj)
    simpa using Finset.card_le_card hsub
  have hfind : (List.range (fds.card + 1)).find? (· ∉ fds) = some n := by
    rw [List.find?_range_eq_some]
    refine ⟨by simpa using hn,List.mem_range.mpr (by omega),?_⟩
    intro j hj
    simpa using hlt j hj
  rw [lowestFree,hfind]
  rfl

theorem slot_toList (h : fd < files.toList.length) : slot files fd = files.toList[fd] := by
  have hlt : fd < MOCK_FILE_MAX := by simpa using h
  rw [slot,Vector.getElem?_eq_getElem hlt]
  rfl

theorem findFirstFree_some {j : ℕ} (h : findFirstFree files = j) :
    j < MOCK_FILE_MAX ∧ slot files j = none ∧ lowestFree (slots files) = j := by
  rw [findFirstFree] at h
  cases hfind : files.toList.findIdx? Option.isNone with
  | none =>
    rw [hfind] at h
    simp at h
  | some i =>
    rw [hfind] at h
    obtain rfl : i = j := Int.ofNat.inj h
    obtain ⟨hi,hnone,hbefore⟩ := List.findIdx?_eq_some_iff_getElem.mp hfind
    have hslot : slot files i = none := by rwa [slot_toList hi,← Option.isNone_iff_eq_none]
    refine ⟨by simpa using hi,hslot,lowestFree_eq ?_ ?_⟩
    · rw [mem_slots,not_not]
      exact hslot
    · intro k hk
      have hsome := hbefore k hk
      rw [mem_slots,slot_toList (hk.trans hi)]
      rintro hkn
      exact hsome (Option.isNone_iff_eq_none.mpr hkn)

end slots

def TomlArray.raws (arr : TomlArray) : List Bytes :=
  if arr.kind = kindValue then arr.val.take arr.nelem else []

def arrayOf (tab : TomlTable) (key : Bytes) : Option TomlArray :=
  (tomlArrayIn tab key).filter fun arr => arr.kind = kindValue || arr.kind = kindNone

def Mock.parsed (mock : Mock) (dev : Bytes) : Option TomlTable :=
  (mock.fopen dev).bind mock.tomlParseFile

def Mock.numerals (mock : Mock) (arr : TomlArray) : Bool :=
  arr.raws.all fun raw => (mock.tomlRtoi raw).isSome

def Mock.readsMsrs (mock : Mock) (tab : TomlTable) : Bool :=
  (arrayOf tab (cstr "msrs")).all mock.numerals

def Mock.strands (mock : Mock) (m : Fake) (dev : Bytes) : Bool :=
  0 ≤ findFirstFree m.world && (mock.parsed dev).any fun tab =>
    !(mock.calloc m.heap.calls && mock.readsMsrs tab)

def Mock.leaks (mock : Mock) (m : Fake) (dev : Bytes) : Bool :=
  mock.strands m dev && mock.calloc m.heap.calls

section arrays
variable {mock : Mock} {arr : TomlArray} {p : Ptr} {b : Live}

theorem rawAt_raws (arr : TomlArray) (j : ℕ) : tomlRawAt arr j = arr.raws[j]? := by
  rw [tomlRawAt,TomlArray.raws]
  by_cases hkind : arr.kind = kindValue
  · rw [if_neg (not_not.mpr hkind),if_pos hkind,List.getElem?_take,Int.toNat_natCast]
    by_cases hj : j < arr.nelem
    · rw [if_neg (not_not.mpr ⟨by omega,by omega⟩),if_pos hj]
    · rw [if_pos (by omega),if_neg hj]
  · rw [if_pos hkind,if_neg hkind]
    rfl

theorem msrFill_result {fuel j : ℕ} {m m' : Fake} {r : Option Ptr}
    (h : Runs (mock.msrFill arr (some p) fuel j) m r m') :
    r = if (arr.raws.drop j).all (fun raw => (mock.tomlRtoi raw).isSome) then some p else none := by
  induction fuel generalizing j m with
  | zero => cases h
  | succ fuel ih =>
    rw [Mock.msrFill,rawAt_raws] at h
    cases hraw : arr.raws[j]? with
    | none =>
      rw [hraw] at h
      cases h
      rw [List.drop_eq_nil_of_le (List.getElem?_eq_none_iff.mp hraw)]
      rfl
    | some raw =>
      obtain ⟨hlt,hget⟩ := List.getElem?_eq_some_iff.mp hraw
      rw [hraw] at h
      rw [List.drop_eq_getElem_cons hlt,hget,List.all_cons]
      cases hv : mock.tomlRtoi raw with
      | none =>
        simp only [hv] at h
        cases h
        rfl
      | some v =>
        simp only [hv] at h
        obtain ⟨q,m₁,hp,h⟩ := runs_bind_iff.mp h
        obtain ⟨block,m₂,hload,h⟩ := runs_bind_iff.mp h
        obtain ⟨indices,m₃,hwrite,h⟩ := runs_bind_iff.mp h
        obtain ⟨⟨⟩,m₄,hstore,h⟩ := runs_bind_iff.mp h
        obtain ⟨i,m₅,hinc,h⟩ := runs_bind_iff.mp h
        have hi : i = ((j + 1 : ℕ) : ℤ) := by
          rw [incInt] at hinc
          split_ifs at hinc <;> cases hinc
          push_cast
          rfl
        rw [hi] at h
        exact ih h

theorem msrFill_null {fuel j : ℕ} {m m' : Fake} {r : Option Ptr}
    (h : Runs (mock.msrFill arr none fuel j) m r m') : r = none ∧ m' = m := by
  cases fuel with
  | zero => cases h
  | succ fuel =>
    rw [Mock.msrFill,rawAt_raws] at h
    cases hraw : arr.raws[j]? with
    | none =>
      rw [hraw] at h
      cases h
      exact ⟨rfl,rfl⟩
    | some raw =>
      rw [hraw] at h
      cases hv : mock.tomlRtoi raw with
      | none =>
        simp only [hv] at h
        cases h
        exact ⟨rfl,rfl⟩
      | some v =>
        simp only [hv] at h
        obtain ⟨q,m₁,hp,h⟩ := runs_bind_iff.mp h
        cases hp

theorem triple_msrFill (mock : Mock) (arr : TomlArray) (fuel : ℕ) (j : ℤ) :
    Triple (OnHeap (Holds b p)) (mock.msrFill arr (some p) fuel j) (fun _ => OnHeap (Holds b p))
      (fun _ => True) := by
  induction fuel generalizing j with
  | zero => exact triple_throw fun _ _ => trivial
  | succ fuel ih =>
    rw [Mock.msrFill]
    cases tomlRawAt arr j with
    | none => exact triple_pure fun _ hm => hm
    | some raw =>
      dsimp only
      cases mock.tomlRtoi raw with
      | none => exact triple_pure fun _ hm => hm
      | some v =>
        apply Triple.bind (triple_pure (Q := fun q m => q = p ∧ OnHeap (Holds b p) m) fun _ hm => ⟨rfl,hm⟩)
        intro q
        apply triple_fix
        rintro m₀ ⟨rfl,hm₀⟩
        apply Triple.pre (P := OnHeap (Holds b q)) _ (fun t ht => ht ▸ hm₀)
        apply (triple_onHeap (keeps_load _ q) _).bind
        intro block
        apply (triple_onHeap (keeps_writeIndex _ _ _ _) _).bind
        intro indices
        apply (triple_store _).bind
        intro _
        apply (triple_onHeap (keeps_incInt _ j) _).bind
        exact fun i => ih i

end arrays

def Granted (granted : Bool) (b : Live) (h : Heap) : Prop :=
  if granted then ∃ p, Holds b p h else Kept b h

section functions
variable {mock : Mock} {m m' : Fake} {fd : ℤ} {tab : TomlTable} {b : Live}

theorem runs_getArray_backed (h : Fake.Backs m fd tab) (key : Bytes) :
    Runs (Mock.getArray fd key) m (arrayOf tab key) m := by
  have hderef : Runs (deref (W := Files) (some tab)) m tab m := runs_pure
  rw [Mock.getArray,h.inRange]
  apply (runs_readFileSlot h).bind
  apply hderef.bind
  rw [arrayOf]
  cases harr : tomlArrayIn tab key with
  | none => exact runs_pure
  | some arr =>
    rw [Option.filter_some]
    dsimp only
    by_cases hkind : arr.kind ≠ kindValue ∧ arr.kind ≠ kindNone
    · rw [if_pos hkind,if_neg (by simpa using hkind)]
      exact runs_pure
    · rw [if_neg hkind,if_pos (by simpa [or_iff_not_imp_left] using hkind)]
      exact runs_pure

theorem keeps_readFileSlot {γ : Type} (v : Fake → γ) (fd : ℤ) : Keeps v (readFileSlot fd) := by
  apply keeps_get.bind
  intro m
  cases m.world[fd.toNat]? with
  | none => exact keeps_throw _
  | some file => exact keeps_pure file

theorem keeps_mockHasExtension {γ : Type} (v : Fake → γ) (mock : Mock) (fd : ℤ) (extension : UInt32) :
    Keeps v (mock.kvmHasExtension fd extension) := by
  have hloop : ∀ exts fuel j, Keeps v (mock.extLoop exts extension fuel j) := by
    intro exts fuel
    induction fuel with
    | zero => exact fun j => keeps_throw _
    | succ fuel ih =>
      intro j
      rw [Mock.extLoop]
      cases tomlRawAt exts j with
      | none => exact keeps_pure _
      | some raw =>
        dsimp only
        cases mock.tomlRtoi raw with
        | none => exact keeps_pure _
        | some x => exact keeps_ite (keeps_pure _) ((keeps_incInt v j).bind ih)
  have harray : Keeps v (Mock.getArray fd (cstr "exts")) := by
    apply keeps_ite (keeps_pure _)
    apply (keeps_readFileSlot v fd).bind
    intro file
    apply (keeps_deref v file).bind
    intro tab
    cases tomlArrayIn tab (cstr "exts") with
    | none => exact keeps_pure _
    | some arr => exact keeps_ite (keeps_pure _) (keeps_pure _)
  apply harray.bind
  intro exts
  cases exts with
  | none => exact keeps_pure _
  | some exts => exact hloop exts loopFuel 0

theorem keeps_msrFill (mock : Mock) (arr : TomlArray) (list : Option Ptr) (fuel : ℕ) (j : ℤ) :
    Keeps Machine.world (mock.msrFill arr list fuel j) := by
  induction fuel generalizing j with
  | zero => exact keeps_throw _
  | succ fuel ih =>
    rw [Mock.msrFill]
    cases tomlRawAt arr j with
    | none => exact keeps_pure _
    | some raw =>
      dsimp only
      cases mock.tomlRtoi raw with
      | none => exact keeps_pure _
      | some x =>
        apply (keeps_deref _ list).bind
        intro q
        apply (keeps_load _ q).bind
        intro block
        apply (keeps_writeIndex _ _ _ _).bind
        intro indices
        apply (keeps_store q _).bind
        intro _
        exact (keeps_incInt _ j).bind ih

theorem alloc_granted {nmsrs : UInt32} {r : Option Ptr}
    (h : Runs (kvmAllocMsrList mock.calloc nmsrs) m r m') (hk : Kept b m.heap) :
    (mock.calloc m.heap.calls = true ∧ ∃ p, r = some p ∧ Holds b p m'.heap) ∨
      (mock.calloc m.heap.calls = false ∧ r = none ∧ Kept b m'.heap) := by
  cases hc : mock.calloc m.heap.calls with
  | false =>
    obtain ⟨rfl,rfl⟩ := h.functional (runs_kvmAllocMsrList_fail hc)
    exact Or.inr ⟨rfl,rfl,hk⟩
  | true =>
    obtain ⟨rfl,rfl⟩ := h.functional (runs_kvmAllocMsrList_ok hc)
    exact Or.inl ⟨rfl,_,rfl,kept_extended hk (freshBlock nmsrs)⟩

theorem mockGetMsrList_spec {r : Option Ptr} (hb : Fake.Backs m fd tab) (hk : Kept b m.heap)
    (hrun : Runs (mock.kvmGetMsrList fd) m r m') :
    m'.world = m.world ∧ r.isSome = (mock.calloc m.heap.calls && mock.readsMsrs tab) ∧
      (∀ p, r = some p → Holds b p m'.heap) ∧ Granted (mock.calloc m.heap.calls) b m'.heap := by
  obtain ⟨arr,m₀,hget,h⟩ := runs_bind_iff.mp hrun
  obtain ⟨rfl,rfl⟩ := hget.functional (runs_getArray_backed hb (cstr "msrs"))
  rw [Mock.readsMsrs]
  cases harr : arrayOf tab (cstr "msrs") with
  | none =>
    simp only [harr] at h
    refine ⟨keeps_alloc _ _ _ _ _ h,?_⟩
    rcases alloc_granted h hk with ⟨hc,p,rfl,hp⟩ | ⟨hc,rfl,hm'⟩
    · rw [hc]
      refine ⟨rfl,?_,p,hp⟩
      rintro q ⟨⟩
      exact hp
    · rw [hc]
      exact ⟨rfl,by simp,hm'⟩
  | some arr =>
    simp only [harr] at h
    obtain ⟨list,m₁,halloc,hfill⟩ := runs_bind_iff.mp h
    have hworld : m'.world = m₀.world :=
      (keeps_msrFill _ _ _ _ _ _ _ _ hfill).trans (keeps_alloc _ _ _ _ _ halloc)
    refine ⟨hworld,?_⟩
    rcases alloc_granted halloc hk with ⟨hc,p,rfl,hp⟩ | ⟨hc,rfl,hm₁⟩
    · have hr := msrFill_result (j := 0) hfill
      have hp' := (triple_msrFill mock arr loopFuel 0 m₁ hp).1 _ _ hfill
      rw [hc,hr,List.drop_zero,Option.all_some,Mock.numerals]
      refine ⟨?_,?_,p,hp'⟩
      · split_ifs with hall <;> simp [hall]
      · intro q hq
        split_ifs at hq
        cases hq
        exact hp'
    · obtain ⟨rfl,rfl⟩ := msrFill_null (j := 0) hfill
      rw [hc]
      exact ⟨rfl,by simp,hm₁⟩

end functions

section scan
variable {mock : Mock} {m m' : Fake} {dev : Bytes} {b : Live}

theorem strands_of_full (h : findFirstFree m.world < 0) : mock.strands m dev = false := by
  rw [Mock.strands,decide_eq_false (not_le.mpr h),Bool.false_and]

theorem strands_of_unparsed (h : mock.parsed dev = none) : mock.strands m dev = false := by
  rw [Mock.strands,h,Option.any_none,Bool.and_false]

theorem strands_of_parsed {tab : TomlTable} (hfree : 0 ≤ findFirstFree m.world)
    (h : mock.parsed dev = some tab) :
    mock.strands m dev = !(mock.calloc m.heap.calls && mock.readsMsrs tab) := by
  rw [Mock.strands,h,Option.any_some,decide_eq_true hfree,Bool.true_and]

theorem mockOpen_inv {fd : ℤ} (h : Runs (mock.kvmOpen dev) m fd m') :
    (fd < 0 ∧ m' = m ∧ mock.strands m dev = false) ∨
      ∃ j tab, ∃ hj : j < MOCK_FILE_MAX, fd = j ∧ findFirstFree m.world = j ∧
        mock.parsed dev = some tab ∧ m' = m.withWorld (m.world.set j (some tab) hj) := by
  obtain ⟨m₀,m₁,hget,h⟩ := runs_bind_iff.mp h
  cases hget
  by_cases hfree : findFirstFree m.world < 0
  · rw [if_pos hfree] at h
    cases h
    exact Or.inl ⟨hfree,rfl,strands_of_full hfree⟩
  · rw [if_neg hfree] at h
    obtain ⟨j,hj⟩ := Int.eq_ofNat_of_zero_le (not_lt.mp hfree)
    obtain ⟨hlt,hslot,-⟩ := findFirstFree_some hj
    cases hsrc : mock.fopen dev with
    | none =>
      have hparsed : mock.parsed dev = none := by rw [Mock.parsed,hsrc,Option.bind_none]
      rw [hsrc] at h
      cases h
      exact Or.inl ⟨by decide,rfl,strands_of_unparsed hparsed⟩
    | some src =>
      have hparsed : mock.parsed dev = mock.tomlParseFile src := by
        rw [Mock.parsed,hsrc,Option.bind_some]
      simp only [hsrc,hj] at h
      obtain ⟨⟨⟩,m₂,hwrite,h⟩ := runs_bind_iff.mp h
      have hlt' : (j : ℤ).toNat < MOCK_FILE_MAX := hlt
      have hstore : Runs (writeFileSlot j (mock.tomlParseFile src)) m ()
          (m.withWorld (m.world.set j (mock.tomlParseFile src) hlt)) := runs_writeFileSlot hlt' _
      obtain ⟨-,rfl⟩ := hwrite.functional hstore
      cases htab : mock.tomlParseFile src with
      | none =>
        have hsame : m.world.set j none hlt = m.world := by
          apply files_ext
          rw [slot_set,← hslot,Function.update_eq_self]
        rw [htab] at hparsed
        simp only [htab,if_true,hsame] at h
        cases h
        exact Or.inl ⟨by decide,rfl,strands_of_unparsed hparsed⟩
      | some tab =>
        simp only [htab,reduceCtorEq,if_false] at h
        cases h
        exact Or.inr ⟨j,tab,hlt,rfl,hj,by rw [hparsed,htab],rfl⟩

theorem mockClose_world {j : ℕ} {tab : TomlTable} {err : ℤ} (hb : Fake.Backs m j tab)
    (h : Runs (Mock.kvmClose j) m err m') :
    slot m'.world = Function.update (slot m.world) j none ∧ m'.heap = m.heap := by
  have hclose : Runs (Mock.kvmClose j) m 0 (m.withWorld (m.world.set j none hb.lt)) := by
    rw [Mock.kvmClose,hb.inRange]
    exact (runs_readFileSlot hb).bind ((runs_writeFileSlot hb.lt none).bind runs_pure)
  obtain ⟨-,rfl⟩ := h.functional hclose
  exact ⟨slot_set hb.lt none,rfl⟩

theorem fakeScan_spec {mode ret : ℤ} (hk : Kept b m.heap)
    (hrun : Runs (kvmStateScan mock.io dev mode) m ret m') :
    (mock.strands m dev = false ∧ m'.world = m.world ∧ Kept b m'.heap) ∨
      (mock.strands m dev = true ∧
        slot m'.world = Function.update (slot m.world) (lowestFree (slots m.world)) (mock.parsed dev) ∧
        lowestFree (slots m.world) < MOCK_FILE_MAX ∧ Granted (mock.calloc m.heap.calls) b m'.heap) := by
  obtain ⟨fd,m₁,hopen,h⟩ := scan_inv hrun
  rcases mockOpen_inv hopen with ⟨hneg,rfl,hno⟩ | ⟨j,tab,hj,rfl,hfree,hparsed,rfl⟩
  · rcases h with ⟨-,rfl⟩ | ⟨hfd,-⟩
    · exact Or.inl ⟨hno,rfl,hk⟩
    · exact absurd hneg (not_lt.mpr hfd)
  · have hfd : (0 : ℤ) ≤ j := Int.natCast_nonneg j
    obtain ⟨-,hslot,hlowest⟩ := findFirstFree_some hfree
    have hstrands := strands_of_parsed (m := m) (by rw [hfree]; exact hfd) hparsed
    have hbacks : Fake.Backs (m.withWorld (m.world.set j (some tab) hj)) j tab :=
      ⟨hfd,by simp⟩
    rcases h with ⟨hneg,-⟩ | ⟨-,r,m₂,hlist,h⟩
    · exact absurd hneg (not_lt.mpr hfd)
    · obtain ⟨hworld,hr,hholds,hgranted⟩ := mockGetMsrList_spec hbacks hk hlist
      rw [withWorld_heap] at hr hgranted
      cases r with
      | none =>
        obtain rfl : m' = m₂ := h
        refine Or.inr ⟨?_,?_,by rw [hlowest]; exact hj,hgranted⟩
        · rw [hstrands,← hr]
          rfl
        · rw [hworld,withWorld_world,slot_set,hlowest,hparsed]
      | some list =>
        obtain ⟨s,m₃,m₄,err,hs,hfree,hloop,hclose⟩ := h
        have hkept : Kept b m₃.heap := (triple_free m₂ (hholds list rfl)).1 _ _ hfree
        have hheap := keeps_capLoop (v := Machine.heap) (fun _ _ => rfl)
          (keeps_mockHasExtension _ mock) s mode (suffixOf mode) allcaps _ _ _ hloop
        have hw := keeps_capLoop (v := Machine.world) (fun _ _ => rfl)
          (keeps_mockHasExtension _ mock) s mode (suffixOf mode) allcaps _ _ _ hloop
        have hw₄ : m₄.world = m.world.set j (some tab) hj := by
          rw [hw,keeps_free list _ _ _ hfree,hworld]
          rfl
        have hbacks₄ : Fake.Backs m₄ j tab := ⟨hfd,by rw [hw₄]; exact hbacks.2⟩
        obtain ⟨hslots,hheap'⟩ := mockClose_world hbacks₄ hclose
        refine Or.inl ⟨?_,files_ext ?_,?_⟩
        · rw [hstrands,← hr]
          rfl
        · rw [hslots,hw₄,slot_set,Function.update_idem,← hslot,Function.update_eq_self]
        · rw [hheap',hheap]
          exact hkept

end scan

structure FakeCall where
  dev : Bytes
  mode : ℤ
  file : Option Bytes
  io : FileIo

def FakeCall.mock (strtod : Bytes → Bool) (calloc : ℕ → Bool) (call : FakeCall) : Mock where
  fopen _ := call.file
  tomlParseFile src := (Toml.tomlParseFile strtod call.io src).toOption.map tomlTable
  tomlRtoi := tomlRtoi
  calloc := calloc

-- The parser is reached when a descriptor is free, and then it has to come back.
def FakeCall.Returns (strtod : Bytes → Bool) (m : Fake) (call : FakeCall) : Prop :=
  0 ≤ findFirstFree m.world → ∀ src ∈ call.file, ∀ stop,
    Toml.tomlParseFile strtod call.io src = .error stop → stop.refuses = true

def FakeScan (strtod : Bytes → Bool) (calloc : ℕ → Bool) (m : Fake) (call : FakeCall) (m' : Fake) :
    Prop :=
  call.Returns strtod m ∧
    ∃ ret, Runs (kvmStateScan (call.mock strtod calloc).io call.dev call.mode) m ret m'

def FakeCall.table (strtod : Bytes → Bool) (call : FakeCall) : Option TomlTable :=
  call.file.bind fun src => (Toml.tomlParseFile strtod call.io src).toOption.map tomlTable

def FakeCall.strands (strtod : Bytes → Bool) (calloc : ℕ → Bool) (m : Fake) (call : FakeCall) : Bool :=
  (call.mock strtod calloc).strands m call.dev

def FakeCall.leaks (strtod : Bytes → Bool) (calloc : ℕ → Bool) (m : Fake) (call : FakeCall) : Bool :=
  (call.mock strtod calloc).leaks m call.dev

-- The MSR lists that are allocated; the parsed tables that are, are those in the slots.
def liveLists (h : Heap) : Set Ptr := { p | h.blocks p ≠ none }

section runs
variable {strtod : Bytes → Bool} {calloc : ℕ → Bool} {m m' : Fake} {call : FakeCall}

theorem liveLists_holds {b : Live} {p : Ptr} {h₀ h : Heap} (hb : h₀.blocks = b) (hh : Holds b p h) :
    liveLists h = insert p (liveLists h₀) ∧ p ∉ liveLists h₀ := by
  obtain ⟨hp,⟨block,hblocks⟩,-⟩ := hh
  constructor
  · ext q
    rw [liveLists,Set.mem_ofPred_eq,hblocks,Set.mem_insert_iff,Function.update_apply,liveLists,
      Set.mem_ofPred_eq,hb]
    split_ifs with hq <;> simp [hq]
  · rw [liveLists,Set.mem_ofPred_eq,hb,not_not]
    exact hp

theorem fakeScan_fresh (h : FakeScan strtod calloc m call m') (hm : m.heap.Fresh) : m'.heap.Fresh := by
  obtain ⟨-,ret,hrun⟩ := h
  rcases fakeScan_spec ⟨rfl,hm⟩ hrun with ⟨-,-,hk⟩ | ⟨-,-,-,hg⟩
  · exact hk.2
  · rw [Granted] at hg
    split_ifs at hg
    · obtain ⟨p,hp⟩ := hg
      exact hp.2.2
    · exact hg.2

theorem fakeScan_slots (h : FakeScan strtod calloc m call m') (hm : m.heap.Fresh) :
    slot m'.world = if call.strands strtod calloc m then
      Function.update (slot m.world) (lowestFree (slots m.world)) (call.table strtod)
      else slot m.world := by
  obtain ⟨-,ret,hrun⟩ := h
  rw [FakeCall.strands]
  rcases fakeScan_spec ⟨rfl,hm⟩ hrun with ⟨hs,hw,-⟩ | ⟨hs,hw,-⟩
  · rw [hs,hw]
    rfl
  · rw [hs,hw]
    rfl

theorem strands_parsed (h : call.strands strtod calloc m = true) :
    ∃ tab, call.table strtod = some tab := by
  cases hp : call.table strtod with
  | none =>
    have hparsed : (call.mock strtod calloc).parsed call.dev = none := hp
    simp [FakeCall.strands,strands_of_unparsed hparsed] at h
  | some tab => exact ⟨tab,rfl⟩

theorem fakeScan_card (h : FakeScan strtod calloc m call m') (hm : m.heap.Fresh) :
    (slots m'.world).card =
      (slots m.world).card + if call.strands strtod calloc m then 1 else 0 := by
  have hslots := fakeScan_slots h hm
  obtain ⟨-,ret,hrun⟩ := h
  rcases fakeScan_spec ⟨rfl,hm⟩ hrun with ⟨hs,hw,-⟩ | ⟨hs,-,hlt,-⟩
  · rw [FakeCall.strands,hs,hw]
    rfl
  · have hstrands : call.strands strtod calloc m = true := hs
    obtain ⟨tab,htab⟩ := strands_parsed hstrands
    have hfiles : m'.world = m.world.set (lowestFree (slots m.world)) (some tab) hlt := by
      apply files_ext
      rw [hslots,hstrands,if_pos rfl,htab,slot_set]
    rw [hstrands,hfiles,slots_update,Finset.card_insert_of_notMem (lowestFree_notMem _)]
    rfl

theorem fakeScan_lists (h : FakeScan strtod calloc m call m') (hm : m.heap.Fresh) :
    (liveLists m'.heap).encard =
      (liveLists m.heap).encard + if call.leaks strtod calloc m then 1 else 0 := by
  obtain ⟨-,ret,hrun⟩ := h
  rw [FakeCall.leaks,Mock.leaks]
  rcases fakeScan_spec ⟨rfl,hm⟩ hrun with ⟨hs,-,hk⟩ | ⟨hs,-,-,hg⟩
  · rw [hs,liveLists,hk.1]
    simp [liveLists]
  · rw [hs,Bool.true_and]
    rw [Granted] at hg
    split_ifs at hg ⊢
    · obtain ⟨p,hp⟩ := hg
      obtain ⟨hlive,hnew⟩ := liveLists_holds rfl hp
      rw [hlive,Set.encard_insert_of_notMem hnew]
    · rw [liveLists,hg.1,add_zero]
      rfl

theorem fakeScan_full (h : FakeScan strtod calloc m call m')
    (hfull : slots m.world = Finset.range MOCK_FILE_MAX) : m' = m := by
  obtain ⟨-,ret,hrun⟩ := h
  obtain ⟨fd,m₁,hopen,h⟩ := scan_inv hrun
  rcases mockOpen_inv hopen with ⟨hneg,rfl,-⟩ | ⟨j,tab,hj,rfl,hfree,-,-⟩
  · rcases h with ⟨-,rfl⟩ | ⟨hfd,-⟩
    · rfl
    · exact absurd hneg (not_lt.mpr hfd)
  · obtain ⟨-,hslot,-⟩ := findFirstFree_some hfree
    have hmem : j ∈ slots m.world := by rw [hfull]; exact Finset.mem_range.mpr hj
    exact absurd hslot (mem_slots.mp hmem)

end runs

section witness

def badToml : Bytes := cstr "msrs = [oops]\n"

def quietIo : FileIo := ⟨true,fun _ => true,fun _ => false⟩

def badCall : FakeCall := ⟨cstr "bad.toml",KVM_INFO_SHOW_FEATURES,some badToml,quietIo⟩

theorem badCall_returns : badCall.Returns digitsOnly emptyFake := by
  rintro - src ⟨⟩ stop hstop
  have hparse : (Toml.tomlParseFile digitsOnly quietIo badToml).toOption.isSome = true := by
    decide +kernel
  rw [show Toml.tomlParseFile digitsOnly quietIo badToml = .error stop from hstop] at hparse
  cases hparse

end witness

end Caps
