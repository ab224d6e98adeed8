import KvmInfo.Caps.HostScan

namespace Caps
open Exec

def MOCK_FILE_MAX : ℕ := 256

def kindNone : UInt8 := 0
def kindValue : UInt8 := 0x76

structure TomlArray where
  kind : UInt8
  nelem : ℕ
  val : List Bytes
  deriving DecidableEq

abbrev TomlTable := List (Bytes × TomlArray)

def tomlArrayIn (tab : TomlTable) (key : Bytes) : Option TomlArray := tab.lookup key

def tomlRawAt (arr : TomlArray) (idx : ℤ) : Option Bytes :=
  if arr.kind ≠ kindValue then none
  else if ¬(0 ≤ idx ∧ idx < arr.nelem) then none
  else arr.val[idx.toNat]?

structure Mock where
  fopen : Bytes → Option Bytes
  tomlParseFile : Bytes → Option TomlTable
  tomlRtoi : Bytes → Option ℤ
  calloc : ℕ → Bool

abbrev Files := Vector (Option TomlTable) MOCK_FILE_MAX

abbrev Fake := Machine Files

def findFirstFree (files : Files) : ℤ :=
  match files.toList.findIdx? Option.isNone with
  | some j => j
  | none => -1

def readFileSlot (fd : ℤ) : C Files (Option TomlTable) := do
  match (← get).world[fd.toNat]? with
  | none => throw .outOfBounds
  | some file => return file

def writeFileSlot (fd : ℤ) (file : Option TomlTable) : C Files Unit := do
  let m ← get
  if h : fd.toNat < MOCK_FILE_MAX then set (m.withWorld (m.world.set fd.toNat file h))
  else throw .outOfBounds

namespace Mock
variable (mock : Mock)

def kvmOpen (dev : Bytes) : C Files ℤ := do
  let fd := findFirstFree (← get).world
  if fd < 0 then return fd
  else
    match mock.fopen dev with
    | none => return -1
    | some src => do
        writeFileSlot fd (mock.tomlParseFile src)
        if mock.tomlParseFile src = none then return -1 else return fd

def outOfRange (fd : ℤ) : Bool := fd < 0 || fd > MOCK_FILE_MAX

def kvmClose (fd : ℤ) : C Files ℤ := do
  if outOfRange fd then return -1
  else
    match ← readFileSlot fd with
    | some _ => writeFileSlot fd none
    | none => pure ()
    return 0

def getArray (fd : ℤ) (key : Bytes) : C Files (Option TomlArray) := do
  if outOfRange fd then return none
  else
    match tomlArrayIn (← deref (← readFileSlot fd)) key with
    | none => return none
    | some ret => if ret.kind ≠ kindValue ∧ ret.kind ≠ kindNone then return none else return some ret

def extLoop (exts : TomlArray) (extension : UInt32) : ℕ → ℤ → C Files ℤ
  | 0, _ => throw .outOfFuel
  | fuel + 1, j =>
      match tomlRawAt exts j with
      | none => return 0
      | some raw =>
          match mock.tomlRtoi raw with
          | none => return 0
          | some v => if (extension.toNat : ℤ) = v then return 1
              else do extLoop exts extension fuel (← incInt j)

def kvmHasExtension (fd : ℤ) (extension : UInt32) : C Files ℤ := do
  match ← getArray fd (cstr "exts") with
  | none => return 0
  | some exts => extLoop mock exts extension loopFuel 0

def toUint32 (v : ℤ) : UInt32 := UInt32.ofNat (v % 2 ^ 32).toNat

def msrFill (msrs : TomlArray) (list : Option Ptr) : ℕ → ℤ → C Files (Option Ptr)
  | 0, _ => throw .outOfFuel
  | fuel + 1, j =>
      match tomlRawAt msrs j with
      | none => return list
      | some raw =>
          match mock.tomlRtoi raw with
          | none => return none
          | some v => do
              let p ← deref list
              let block ← load p
              let indices ← writeIndex block.indices j (toUint32 v)
              store p { block with indices := indices }
              msrFill msrs list fuel (← incInt j)

def kvmGetMsrList (fd : ℤ) : C Files (Option Ptr) := do
  match ← getArray fd (cstr "msrs") with
  | none => kvmAllocMsrList mock.calloc 0
  | some msrs => do
      let list ← kvmAllocMsrList mock.calloc (toUint32 msrs.nelem)
      msrFill mock msrs list loopFuel 0

def io : Io Files := ⟨kvmOpen mock,kvmClose,kvmHasExtension mock,kvmGetMsrList mock⟩

end Mock

def TomlArray.Holds (rtoi : Bytes → Option ℤ) (arr : TomlArray) (xs : List UInt32) : Prop :=
  (arr.kind = kindValue ∨ arr.kind = kindNone ∧ xs = []) ∧ arr.nelem = xs.length ∧
    arr.val.map rtoi = xs.map (fun x => some (x.toNat : ℤ))

def TomlTable.Lists (rtoi : Bytes → Option ℤ) (tab : TomlTable) (key : Bytes) (xs : List UInt32) :
    Prop :=
  match tomlArrayIn tab key with
  | none => xs = []
  | some arr => arr.Holds rtoi xs

section arrays
variable {rtoi : Bytes → Option ℤ} {arr : TomlArray} {xs : List UInt32}

theorem rawAt_some (h : arr.Holds rtoi xs) {j : ℕ} (hj : j < xs.length) :
    ∃ raw, tomlRawAt arr j = some raw ∧ rtoi raw = some (xs[j].toNat : ℤ) := by
  obtain ⟨hkind,hn,hval⟩ := h
  have hv : arr.kind = kindValue := by
    rcases hkind with hv | ⟨-,rfl⟩
    · exact hv
    · simp at hj
  have hlen : arr.val.length = xs.length := by simpa using congrArg List.length hval
  have hj' : j < arr.val.length := by omega
  refine ⟨arr.val[j],?_,?_⟩
  · rw [tomlRawAt,if_neg (not_not.mpr hv),if_neg (not_not.mpr ⟨by omega,by omega⟩),
      Int.toNat_natCast,List.getElem?_eq_getElem hj']
  · have := congrArg (fun l => l[j]?) hval
    simpa [hj',hj] using this

theorem rawAt_none (h : arr.Holds rtoi xs) : tomlRawAt arr xs.length = none := by
  obtain ⟨-,hn,-⟩ := h
  rw [tomlRawAt]
  split_ifs with h1 h2
  · rfl
  · omega
  · rfl

theorem lists_cases {tab : TomlTable} {key : Bytes} (h : tab.Lists rtoi key xs) :
    (tomlArrayIn tab key = none ∧ xs = []) ∨
      ∃ arr, tomlArrayIn tab key = some arr ∧ arr.Holds rtoi xs := by
  rw [TomlTable.Lists] at h
  cases harr : tomlArrayIn tab key with
  | none => exact Or.inl ⟨rfl,by simpa [harr] using h⟩
  | some arr => exact Or.inr ⟨arr,rfl,by simpa [harr] using h⟩

end arrays

def Fake.Backs (m : Fake) (fd : ℤ) (tab : TomlTable) : Prop :=
  0 ≤ fd ∧ m.world[fd.toNat]? = some (some tab)

section files
variable {m : Fake} {fd : ℤ} {tab : TomlTable}

theorem Fake.Backs.lt (h : Fake.Backs m fd tab) : fd.toNat < MOCK_FILE_MAX :=
  (Vector.getElem?_eq_some_iff.mp h.2).1

theorem Fake.Backs.inRange (h : Fake.Backs m fd tab) : Mock.outOfRange fd = false := by
  have hlt := h.lt
  have h0 := h.1
  rw [Mock.outOfRange,Bool.or_eq_false_iff,decide_eq_false_iff_not,decide_eq_false_iff_not]
  omega

theorem runs_readFileSlot (h : Fake.Backs m fd tab) : Runs (readFileSlot fd) m (some tab) m := by
  refine runs_get.bind ?_
  rw [h.2]
  exact runs_pure

theorem runs_writeFileSlot (h : fd.toNat < MOCK_FILE_MAX) (file : Option TomlTable) :
    Runs (writeFileSlot fd file) m () (m.withWorld (m.world.set fd.toNat file h)) := by
  refine runs_get.bind ?_
  rw [dif_pos h]
  rfl

theorem findFirstFree_lt (files : Files) : findFirstFree files < MOCK_FILE_MAX := by
  rw [findFirstFree]
  cases h : files.toList.findIdx? Option.isNone with
  | none => decide
  | some j =>
    have hlt := (List.findIdx?_eq_some_iff_findIdx_eq.mp h).1
    rw [Vector.length_toList] at hlt
    simpa using hlt

end files

section functions
variable {mock : Mock} {m : Fake} {fd : ℤ} {tab : TomlTable} {xs : List UInt32}

theorem runs_mockOpen {dev src : Bytes} (hfree : 0 ≤ findFirstFree m.world)
    (hsrc : mock.fopen dev = some src) (htab : mock.tomlParseFile src = some tab) :
    ∃ m', Runs (mock.kvmOpen dev) m (findFirstFree m.world) m' ∧
      Fake.Backs m' (findFirstFree m.world) tab ∧ m'.heap = m.heap ∧ m'.emitted = m.emitted := by
  have hlt : (findFirstFree m.world).toNat < MOCK_FILE_MAX := by
    have := findFirstFree_lt m.world
    omega
  refine ⟨m.withWorld (m.world.set (findFirstFree m.world).toNat (some tab) hlt),?_,
    ⟨hfree,by simp⟩,rfl,rfl⟩
  refine runs_get.bind ?_
  rw [if_neg (not_lt.mpr hfree)]
  simp only [hsrc,htab]
  exact (runs_writeFileSlot hlt (some tab)).bind runs_pure

theorem runs_mockClose (h : Fake.Backs m fd tab) :
    ∃ err m', Runs (Mock.kvmClose fd) m err m' ∧ m'.emitted = m.emitted := by
  refine ⟨0,m.withWorld (m.world.set fd.toNat none h.lt),?_,rfl⟩
  rw [Mock.kvmClose,h.inRange]
  exact (runs_readFileSlot h).bind ((runs_writeFileSlot h.lt none).bind runs_pure)

theorem runs_getArray {key : Bytes} (h : Fake.Backs m fd tab)
    (hlist : tab.Lists mock.tomlRtoi key xs) :
    (Runs (Mock.getArray fd key) m none m ∧ xs = []) ∨
      ∃ arr, Runs (Mock.getArray fd key) m (some arr) m ∧ arr.Holds mock.tomlRtoi xs := by
  have hderef : Runs (deref (W := Files) (some tab)) m tab m := runs_pure
  rw [Mock.getArray,h.inRange]
  rcases lists_cases hlist with ⟨hnone,hxs⟩ | ⟨arr,harr,hholds⟩
  · refine Or.inl ⟨(runs_readFileSlot h).bind (hderef.bind ?_),hxs⟩
    rw [hnone]
    exact runs_pure
  · have hkind : ¬(arr.kind ≠ kindValue ∧ arr.kind ≠ kindNone) := by
      rcases hholds.1 with hv | ⟨hn,-⟩
      · exact fun hk => hk.1 hv
      · exact fun hk => hk.2 hn
    refine Or.inr ⟨arr,(runs_readFileSlot h).bind (hderef.bind ?_),hholds⟩
    simp only [harr,if_neg hkind]
    exact runs_pure

theorem runs_extLoop {exts : TomlArray} (h : exts.Holds mock.tomlRtoi xs)
    (hmax : xs.length < 2 ^ 31) (extension : UInt32) (fuel j : ℕ) (hj : j ≤ xs.length)
    (hfuel : xs.length < fuel + j) :
    ∃ r, Runs (mock.extLoop exts extension fuel j) m r m ∧ (r ≠ 0 ↔ extension ∈ xs.drop j) := by
  induction fuel generalizing j with
  | zero => omega
  | succ fuel ih =>
    rw [Mock.extLoop]
    rcases hj.lt_or_eq with hlt | rfl
    · obtain ⟨raw,hraw,hv⟩ := rawAt_some h hlt
      rw [List.drop_eq_getElem_cons hlt,List.mem_cons]
      simp only [hraw,hv]
      split_ifs with he
      · have he : extension = xs[j] := UInt32.toNat_inj.mp (by exact_mod_cast he)
        exact ⟨1,runs_pure,by simp [he]⟩
      · have hne : extension ≠ xs[j] := by
          rintro rfl
          exact he rfl
        obtain ⟨r,hr,hmem⟩ := ih (j + 1) hlt (by omega)
        exact ⟨r,(runs_incInt (by unfold intMax; omega)).bind hr,by simpa [hne] using hmem⟩
    · rw [rawAt_none h]
      exact ⟨0,runs_pure,by simp⟩

theorem runs_mockHasExtension (h : Fake.Backs m fd tab)
    (hlist : tab.Lists mock.tomlRtoi (cstr "exts") xs) (hmax : xs.length < 2 ^ 31)
    (extension : UInt32) :
    ∃ r, Runs (mock.kvmHasExtension fd extension) m r m ∧ (r ≠ 0 ↔ extension ∈ xs) := by
  rcases runs_getArray h hlist with ⟨hget,rfl⟩ | ⟨arr,hget,hholds⟩
  · exact ⟨0,hget.bind runs_pure,by simp⟩
  · obtain ⟨r,hr,hmem⟩ := runs_extLoop (m := m) hholds hmax extension loopFuel 0 (by omega)
      (by unfold loopFuel; omega)
    exact ⟨r,hget.bind hr,hmem⟩

theorem toUint32_toNat (x : UInt32) : Mock.toUint32 x.toNat = x := by
  have := x.toNat_lt
  have hmod : ((x.toNat : ℤ) % 2 ^ 32).toNat = x.toNat := by omega
  rw [Mock.toUint32,hmod,UInt32.ofNat_toNat]

theorem toUint32_natCast {n : ℕ} (h : n < 2 ^ 32) : Mock.toUint32 n = UInt32.ofNat n := by
  have hmod : ((n : ℤ) % 2 ^ 32).toNat = n := by omega
  rw [Mock.toUint32,hmod]

theorem runs_msrFill {msrs : TomlArray} (h : msrs.Holds mock.tomlRtoi xs)
    (hmax : xs.length < 2 ^ 31) {p : Ptr} {nmsrs : UInt32} (rest : List UInt32)
    (hfit : xs.length ≤ rest.length) (fuel j : ℕ) (hj : j ≤ xs.length)
    (hfuel : xs.length < fuel + j)
    (hb : m.heap.blocks p = some ⟨nmsrs,xs.take j ++ rest.drop j⟩) :
    ∃ m', Runs (mock.msrFill msrs (some p) fuel j) m (some p) m' ∧
      m'.heap.blocks p = some ⟨nmsrs,xs ++ rest.drop xs.length⟩ ∧ m'.world = m.world ∧
      m'.emitted = m.emitted := by
  induction fuel generalizing j m with
  | zero => omega
  | succ fuel ih =>
    rw [Mock.msrFill]
    rcases hj.lt_or_eq with hlt | rfl
    · obtain ⟨raw,hraw,hv⟩ := rawAt_some h hlt
      simp only [hraw,hv,toUint32_toNat]
      have hset : (xs.take j ++ rest.drop j).set j xs[j] = xs.take (j + 1) ++ rest.drop (j + 1) := by
        rw [List.set_append_right _ _ (by simp),List.length_take,min_eq_left hj,Nat.sub_self,
          List.drop_eq_getElem_cons (by omega),List.set_cons_zero,List.take_add_one,
          List.getElem?_eq_getElem hlt,Option.toList_some,List.append_assoc,List.singleton_append]
      have hderef : Runs (deref (W := Files) (some p)) m p m := runs_pure
      have hwrite : Runs (writeIndex (xs.take j ++ rest.drop j) j xs[j]) m _ m :=
        runs_writeIndex (by simp; omega)
      obtain ⟨m',hrun,hblock,hworld,hem⟩ := ih (m := m.withHeap (m.heap.set p _)) (j + 1) hlt
        (by omega) (by rw [withHeap_heap,set_self])
      refine ⟨m',?_,hblock,hworld,hem⟩
      refine hderef.bind ((runs_load hb).bind (hwrite.bind ((runs_store hb).bind ?_)))
      rw [hset]
      exact (runs_incInt (by unfold intMax; omega)).bind hrun
    · rw [rawAt_none h]
      exact ⟨m,runs_pure,by simpa using hb,rfl,rfl⟩

theorem runs_mockGetMsrList (h : Fake.Backs m fd tab)
    (hlist : tab.Lists mock.tomlRtoi (cstr "msrs") xs) (hmax : xs.length < 2 ^ 31)
    (hcalloc : mock.calloc m.heap.calls = true) :
    ∃ m' list block, Runs (mock.kvmGetMsrList fd) m (some list) m' ∧
      m'.heap.blocks list = some block ∧ block.nmsrs.toNat ≤ block.indices.length ∧
      xs = block.indices.take block.nmsrs.toNat ∧ m'.world = m.world ∧ m'.emitted = m.emitted := by
  rcases runs_getArray h hlist with ⟨hget,rfl⟩ | ⟨arr,hget,hholds⟩
  · exact ⟨_,_,_,hget.bind (runs_kvmAllocMsrList_ok hcalloc),extended_self _ _,freshBlock_fits 0,rfl,
      rfl,rfl⟩
  · have hn : (UInt32.ofNat xs.length).toNat = xs.length :=
      UInt32.toNat_ofNat_of_lt' (lt_trans hmax (by decide))
    have hnelem : Mock.toUint32 arr.nelem = UInt32.ofNat xs.length := by
      rw [hholds.2.1,toUint32_natCast (by omega)]
    obtain ⟨m',hrun,hblock,hworld,hem⟩ := runs_msrFill
      (m := m.withHeap (m.heap.extended (freshBlock (UInt32.ofNat xs.length)))) hholds hmax
      (p := m.heap.next) (freshBlock (UInt32.ofNat xs.length)).indices
      (by simp [freshBlock,hn]) loopFuel 0 (by omega) (by unfold loopFuel; omega)
      (by rw [withHeap_heap,extended_self]; rfl)
    refine ⟨m',m.heap.next,_,hget.bind ?_,hblock,?_,?_,hworld,hem⟩
    · simp only [hnelem]
      exact (runs_kvmAllocMsrList_ok hcalloc).bind hrun
    · simp [freshBlock,hn]
    · rw [freshBlock,hn,List.take_left]

end functions
end Caps
