import KvmInfo.Toml.Fuel

namespace Toml
open Caps

structure FileIo where
  malloc : Bool
  realloc : ℕ → Bool
  ferror : ℕ → Bool

inductive FileStop where
  | outOfMemory
  | reading
  | overrun
  | signedOverflow
  | outOfFuel
  | parse (stop : Stop)
  deriving DecidableEq, Repr

-- The stops at which toml_parse_file returns, with NULL.
def FileStop.refuses : FileStop → Bool
  | .outOfMemory => true
  | .reading => true
  | .parse (.error _) => true
  | _ => false

-- `buf` is what has been read, `off` bytes of it; `left` is what the stream still holds.
structure ReadState where
  bufsz : ℕ
  buf : Bytes
  left : Bytes
  feof : Bool

def addInt (a b : ℕ) : Except FileStop ℕ :=
  if intMax < (a : ℤ) + b then .error .signedOverflow else .ok (a + b)

def readRound (io : FileIo) (round : ℕ) (s : ReadState) : Except FileStop ReadState := do
  let bufsz ← addInt s.bufsz 1000
  let _size ← addInt bufsz 1
  if io.realloc round = false then throw .outOfMemory
  else if bufsz < s.buf.length then throw .overrun
  else
    let n := bufsz - s.buf.length
    if io.ferror round then throw .reading
    else do
      let _off ← addInt s.buf.length (s.left.take n).length
      return ⟨bufsz,s.buf ++ s.left.take n,s.left.drop n,s.left.length < n⟩

def readLoop (io : FileIo) : ℕ → ℕ → ReadState → Except FileStop ReadState
  | 0, _, _ => .error .outOfFuel
  | fuel + 1, round, s =>
      if s.feof then .ok s
      else do
        let s ← readRound io round s
        readLoop io fuel (round + 1) s

def tomlParseFile (strtod : Bytes → Bool) (io : FileIo) (file : Bytes) : Except FileStop Table :=
  if io.malloc = false then .error .outOfMemory
  else do
    let s ← readLoop io (file.length / 1000 + 2) 0 ⟨1000,[],file,false⟩
    -- the buffer has one byte more than bufsz, for the NUL
    if s.bufsz < s.buf.length then throw .overrun
    match tomlParse strtod (enoughFuel s.buf) s.buf with
    | .ok root => return root
    | .error stop => throw (.parse stop)

def overflows (round : ℕ) : Bool := intMax < 1000 * ((round : ℤ) + 2)

def FileIo.bad (io : FileIo) (round : ℕ) : Bool := !io.realloc round || io.ferror round

def FileIo.stop (io : FileIo) (round : ℕ) : FileStop :=
  if overflows round then .signedOverflow
  else if io.realloc round then .reading else .outOfMemory

def rounds (file : Bytes) : ℕ := max 1 (file.length / 1000)

def atRound (file : Bytes) (round : ℕ) : ReadState :=
  if round = 0 then ⟨1000,[],file,false⟩
  else
    let bufsz := 1000 * (round + 1)
    ⟨bufsz,file.take bufsz,file.drop bufsz,file.length < bufsz⟩

section loop
variable {io : FileIo} {file : Bytes} {round : ℕ}

theorem atRound_feof : (atRound file round).feof = true ↔ rounds file ≤ round := by
  rw [atRound,rounds]
  split_ifs with h
  · simp [h]
  · simp only [decide_eq_true_eq]
    omega

theorem atRound_bounded (file : Bytes) (round : ℕ) :
    (atRound file round).buf.length ≤ (atRound file round).bufsz := by
  rw [atRound]
  split_ifs
  · exact Nat.zero_le _
  · exact List.length_take_le _ _

theorem atRound_bufsz (file : Bytes) (round : ℕ) : (atRound file round).bufsz = 1000 * (round + 1) := by
  rw [atRound]
  split_ifs with h
  · simp [h]
  · rfl

theorem overflows_iff : overflows round = true ↔ 2147482 ≤ round := by
  rw [overflows,decide_eq_true_iff,intMax]
  omega

theorem addInt_overflows (h : overflows round = true) :
    addInt (1000 * (round + 1)) 1000 = .error .signedOverflow := by
  have hlarge : intMax < ((1000 * (round + 1) : ℕ) : ℤ) + (1000 : ℕ) := by
    have hround := overflows_iff.mp h
    unfold intMax
    omega
  rw [addInt,if_pos hlarge]

theorem addInt_fits (h : overflows round = false) {a b : ℕ} (hab : a + b ≤ 1000 * (round + 2) + 1) :
    addInt a b = .ok (a + b) := by
  have hsmall : ¬intMax < (a : ℤ) + b := by
    have hround := mt overflows_iff.mpr (Bool.eq_false_iff.mp h)
    unfold intMax
    omega
  rw [addInt,if_neg hsmall]

theorem atRound_next (hfeof : (atRound file round).feof = false) :
    let s := atRound file round
    let n := 1000 * (round + 2) - s.buf.length
    (⟨1000 * (round + 2),s.buf ++ s.left.take n,s.left.drop n,s.left.length < n⟩ : ReadState) =
      atRound file (round + 1) := by
  cases round with
  | zero => simp [atRound]
  | succ k =>
    have hlong : 1000 * (k + 1 + 1) ≤ file.length := by
      simpa [atRound] using hfeof
    have hnew : 1000 * (k + 1 + 2) = 1000 * (k + 1 + 1) + 1000 := by omega
    simp only [atRound,Nat.succ_ne_zero,if_false,hnew]
    generalize 1000 * (k + 1 + 1) = bufsz at hlong ⊢
    have hend : decide (file.length - bufsz < 1000) = decide (file.length < bufsz + 1000) :=
      decide_eq_decide.mpr (by omega)
    rw [List.length_take,Nat.min_eq_left hlong,Nat.add_sub_cancel_left,List.drop_drop,
      List.length_drop,List.take_add,hend]

theorem readRound_outcome (hfeof : (atRound file round).feof = false) :
    readRound io round (atRound file round) =
      if overflows round || io.bad round then .error (io.stop round)
      else .ok (atRound file (round + 1)) := by
  rw [readRound,atRound_bufsz,FileIo.stop,FileIo.bad]
  cases hover : overflows round with
  | true =>
    rw [addInt_overflows hover]
    rfl
  | false =>
    have hbounded := atRound_bounded file round
    have hnext := atRound_next hfeof
    rw [atRound_bufsz] at hbounded
    have hroom : ¬1000 * (round + 2) < (atRound file round).buf.length := by omega
    have hoff : (atRound file round).buf.length +
        ((atRound file round).left.take (1000 * (round + 2) - (atRound file round).buf.length)).length ≤
          1000 * (round + 2) + 1 := by
      rw [List.length_take]
      omega
    rw [addInt_fits hover (by omega),show 1000 * (round + 1) + 1000 = 1000 * (round + 2) by omega]
    simp only [bind,Except.bind,addInt_fits hover le_rfl,hroom,if_false,addInt_fits hover hoff]
    cases io.realloc round with
    | false => rfl
    | true =>
      cases io.ferror round with
      | true => rfl
      | false => exact congrArg Except.ok hnext

theorem readLoop_outcome {fuel k : ℕ} (hround : round + k = rounds file) (hfuel : k < fuel) :
    readLoop io fuel round (atRound file round) =
      match (List.range' round k).find? (fun j => overflows j || io.bad j) with
      | some j => .error (io.stop j)
      | none => .ok (atRound file (rounds file)) := by
  induction k generalizing round fuel with
  | zero =>
    obtain ⟨fuel,rfl⟩ : ∃ n, fuel = n + 1 := ⟨fuel - 1,by omega⟩
    have hfeof : (atRound file round).feof = true := atRound_feof.mpr (by omega)
    have hlast : round = rounds file := by omega
    rw [readLoop,if_pos hfeof,hlast]
    rfl
  | succ k ih =>
    obtain ⟨fuel,rfl⟩ : ∃ n, fuel = n + 1 := ⟨fuel - 1,by omega⟩
    have hfeof : (atRound file round).feof = false := by
      rw [Bool.eq_false_iff]
      intro h
      have hle := atRound_feof.mp h
      omega
    rw [readLoop,if_neg (by simp [hfeof]),readRound_outcome hfeof,List.range'_succ]
    cases hbad : overflows round || io.bad round with
    | true =>
      rw [if_pos rfl,List.find?_cons_of_pos (p := fun j => overflows j || io.bad j) hbad]
      rfl
    | false =>
      rw [if_neg Bool.false_ne_true,List.find?_cons_of_neg (by simp [hbad])]
      exact ih (by omega) (by omega)

theorem atRound_whole : (atRound file (rounds file)).buf = file := by
  have hpos : rounds file ≠ 0 := by
    rw [rounds]
    omega
  have hlong : file.length ≤ 1000 * (rounds file + 1) := by
    rw [rounds]
    omega
  rw [atRound,if_neg hpos]
  exact List.take_of_length_le hlong

theorem parseFile_outcome (strtod : Bytes → Bool) (io : FileIo) (file : Bytes)
    (hmalloc : io.malloc = true) :
    tomlParseFile strtod io file =
      match (List.range (rounds file)).find? (fun round => overflows round || io.bad round) with
      | some round => .error (io.stop round)
      | none => (tomlParse strtod (enoughFuel file) file).mapError .parse := by
  have hstart : (⟨1000,[],file,false⟩ : ReadState) = atRound file 0 := rfl
  have hfuel : rounds file < file.length / 1000 + 2 := by
    rw [rounds]
    omega
  have hbounded := not_lt.mpr (atRound_bounded file (rounds file))
  rw [atRound_whole] at hbounded
  rw [tomlParseFile,hmalloc,hstart,readLoop_outcome (Nat.zero_add _) hfuel,List.range_eq_range']
  cases (List.range' 0 (rounds file)).find? (fun round => overflows round || io.bad round) with
  | some round => rfl
  | none =>
    simp only [Bool.true_eq_false,if_false,bind,Except.bind,hbounded,atRound_whole]
    cases tomlParse strtod (enoughFuel file) file <;> rfl

theorem rounds_overflow (file : Bytes) :
    (∃ round ∈ List.range (rounds file), overflows round = true) ↔ 2147483000 ≤ file.length := by
  simp only [List.mem_range,rounds,overflows_iff]
  constructor
  · rintro ⟨round,hround,h⟩
    omega
  · intro h
    exact ⟨2147482,by omega,le_rfl⟩

theorem rounds_fit (h : file.length < 2147483000) (hround : round ∈ List.range (rounds file)) :
    overflows round = false := by
  rw [Bool.eq_false_iff]
  intro hover
  have hlarge := (rounds_overflow file).mp ⟨round,hround,hover⟩
  omega

end loop

theorem tomlParseFile_outcome (strtod : Bytes → Bool) (io : FileIo) (file : Bytes) :
    (tomlParseFile strtod io file =
      if io.malloc = false then .error .outOfMemory
      else
        match (List.range (rounds file)).find? (fun round => overflows round || io.bad round) with
        | some round => .error (io.stop round)
        | none => (tomlParse strtod (enoughFuel file) file).mapError .parse) ∧
      ((∃ round ∈ List.range (rounds file), overflows round = true) ↔ 2147483000 ≤ file.length) := by
  refine ⟨?_,rounds_overflow file⟩
  cases hmalloc : io.malloc with
  | false =>
    rw [tomlParseFile,hmalloc,if_pos rfl,if_pos rfl]
  | true =>
    rw [parseFile_outcome strtod io file hmalloc,if_neg Bool.true_eq_false.mp]

end Toml
