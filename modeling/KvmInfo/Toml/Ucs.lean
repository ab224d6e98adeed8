import KvmInfo.Toml.Keys

namespace Toml
open Caps

-- `n` bytes 10xxxxxx, whose bits go behind those of `v`.
def readTail : ℕ → ℕ → Bytes → Option ℕ
  | 0, v, _ => some v
  | _ + 1, _, [] => none
  | n + 1, v, i :: buf =>
      if 0x2 ≠ i.toNat >>> 6 then none else readTail n ((v <<< 6) ||| (i.toNat &&& 0x3F)) buf

def readMulti (n v : ℕ) (buf : Bytes) : Option (ℕ × ℕ) :=
  if buf.length < n then none else (readTail n v buf).map fun v => (v,n + 1)

-- `orig` is the `len` bytes that the caller has.
def utf8ToUcs (orig : Bytes) : Option (ℕ × ℕ) :=
  match orig with
  | [] => none
  | c :: buf =>
      let i := c.toNat
      if 0 = i >>> 7 then some (i,1)
      else if 0x6 = i >>> 5 then readMulti 1 (i &&& 0x1F) buf
      else if 0xE = i >>> 4 then readMulti 2 (i &&& 0x0F) buf
      else if 0x1E = i >>> 3 then readMulti 3 (i &&& 0x07) buf
      else if 0x3E = i >>> 2 then readMulti 4 (i &&& 0x03) buf
      else if 0x7E = i >>> 1 then readMulti 5 (i &&& 0x01) buf
      else none

-- The form with `n` bytes behind the first one: the first bytes it has, and the codes.
def mark (n : ℕ) : ℕ := if n = 0 then 0 else 2 ^ 8 - 2 ^ (7 - n)

def leads (n : ℕ) : ℕ := if n = 0 then 2 ^ 7 else 2 ^ (6 - n)

def room (n : ℕ) : ℕ := leads n * 64 ^ n

def tailOf : ℕ → ℕ → Bytes
  | 0, _ => []
  | n + 1, code => continuation code (6 * n) :: tailOf n code

def form (n code : ℕ) : Bytes := leading (mark n) code (6 * n) :: tailOf n code

section tails

theorem continuation_toNat (code n : ℕ) :
    (continuation code (6 * n)).toNat = 0x80 + code / 64 ^ n % 64 := by
  have hlow : (code >>> (6 * n)) &&& 0x3F = code / 64 ^ n % 64 := by
    rw [Nat.shiftRight_eq_div_pow,pow_mul]
    exact Nat.and_two_pow_sub_one_eq_mod _ 6
  have hlt : code / 64 ^ n % 64 < 2 ^ 6 := Nat.mod_lt _ (by decide)
  have hor : 0x80 ||| code / 64 ^ n % 64 = 0x80 + code / 64 ^ n % 64 :=
    (Nat.two_pow_add_eq_or_of_lt hlt 2).symm
  rw [continuation,hlow,hor,UInt8.toNat_ofNat']
  omega

theorem readTail_step {n v : ℕ} {i : UInt8} (h : i.toNat / 64 = 2) (buf : Bytes) :
    readTail (n + 1) v (i :: buf) = readTail n (v * 64 + i.toNat % 64) buf := by
  have hshift : i.toNat >>> 6 = 2 := by rw [Nat.shiftRight_eq_div_pow]; exact h
  have hlow : i.toNat &&& 0x3F = i.toNat % 64 := Nat.and_two_pow_sub_one_eq_mod _ 6
  have hor : (v <<< 6) ||| i.toNat % 64 = v * 64 + i.toNat % 64 := by
    rw [← Nat.shiftLeft_add_eq_or_of_lt (Nat.mod_lt _ (by decide)),Nat.shiftLeft_eq]
  rw [readTail,hshift,hlow,hor,if_neg (by decide)]

theorem readTail_refuse {n v : ℕ} {i : UInt8} (h : i.toNat / 64 ≠ 2) (buf : Bytes) :
    readTail (n + 1) v (i :: buf) = none := by
  have hshift : i.toNat >>> 6 ≠ 2 := by rw [Nat.shiftRight_eq_div_pow]; exact h
  rw [readTail,if_pos (Ne.symm hshift)]

theorem tailOf_length (n code : ℕ) : (tailOf n code).length = n := by
  induction n with
  | zero => rfl
  | succ n ih => rw [tailOf,List.length_cons,ih]

theorem tailOf_high {n code : ℕ} : ∀ b ∈ tailOf n code, 0x80 ≤ b.toNat := by
  induction n with
  | zero => simp [tailOf]
  | succ n ih =>
    rw [tailOf,List.forall_mem_cons,continuation_toNat]
    exact ⟨Nat.le_add_right _ _,ih⟩

theorem readTail_tailOf (n v code : ℕ) (rest : Bytes) :
    readTail n v (tailOf n code ++ rest) = some (v * 64 ^ n + code % 64 ^ n) := by
  induction n generalizing v with
  | zero => simp [readTail,Nat.mod_one]
  | succ n ih =>
    have hbyte := continuation_toNat code n
    have hlow : (continuation code (6 * n)).toNat % 64 = code / 64 ^ n % 64 := by omega
    rw [tailOf,List.cons_append,readTail_step (by omega),hlow,ih]
    congr 1
    rw [pow_succ,Nat.mod_mul]
    ring

theorem readTail_inv {n v w : ℕ} {buf : Bytes} (h : readTail n v buf = some w) :
    w / 64 ^ n = v ∧ tailOf n w <+: buf := by
  induction n generalizing v buf with
  | zero =>
    cases h
    exact ⟨by simp,List.nil_prefix⟩
  | succ n ih =>
    cases buf with
    | nil => cases h
    | cons i buf =>
      by_cases hi : i.toNat / 64 = 2
      · rw [readTail_step hi] at h
        obtain ⟨hdiv,hstart⟩ := ih h
        have hhead : continuation w (6 * n) = i := by
          rw [← UInt8.toNat_inj,continuation_toNat,hdiv]
          omega
        refine ⟨?_,?_⟩
        · rw [pow_succ,← Nat.div_div_eq_div_mul,hdiv]
          omega
        · rw [tailOf,hhead]
          exact (List.prefix_cons_inj i).mpr hstart
      · rw [readTail_refuse hi] at h
        cases h

end tails

section forms
variable {n code k : ℕ} {bs : Bytes}

def Marks (n : ℕ) (c : UInt8) : Prop := mark n ≤ c.toNat ∧ c.toNat < mark n + leads n

theorem utf8ToUcs_cons {c : UInt8} (hn : n ≤ 5) (hc : Marks n c) (buf : Bytes) :
    utf8ToUcs (c :: buf) = readMulti n (c.toNat - mark n) buf := by
  obtain ⟨hlo,hhi⟩ := hc
  have h5 : c.toNat &&& 0x1F = c.toNat % 32 := Nat.and_two_pow_sub_one_eq_mod _ 5
  have h4 : c.toNat &&& 0x0F = c.toNat % 16 := Nat.and_two_pow_sub_one_eq_mod _ 4
  have h3 : c.toNat &&& 0x07 = c.toNat % 8 := Nat.and_two_pow_sub_one_eq_mod _ 3
  have h2 : c.toNat &&& 0x03 = c.toNat % 4 := Nat.and_two_pow_sub_one_eq_mod _ 2
  have h1 : c.toNat &&& 0x01 = c.toNat % 2 := Nat.and_two_pow_sub_one_eq_mod _ 1
  simp only [utf8ToUcs,Nat.shiftRight_eq_div_pow,h1,h2,h3,h4,h5]
  interval_cases n <;> simp only [mark,leads] at hlo hhi ⊢ <;> norm_num at hlo hhi ⊢
  · rw [if_pos (by omega)]
    rfl
  · have hlow : c.toNat % 32 = c.toNat - 192 := by omega
    rw [if_neg (by omega),if_pos (by omega),hlow]
  · have hlow : c.toNat % 16 = c.toNat - 224 := by omega
    rw [if_neg (by omega),if_neg (by omega),if_pos (by omega),hlow]
  · have hlow : c.toNat % 8 = c.toNat - 240 := by omega
    rw [if_neg (by omega),if_neg (by omega),if_neg (by omega),if_pos (by omega),hlow]
  · have hlow : c.toNat % 4 = c.toNat - 248 := by omega
    rw [if_neg (by omega),if_neg (by omega),if_neg (by omega),if_neg (by omega),if_pos (by omega),
      hlow]
  · have hlow : c.toNat % 2 = c.toNat - 252 := by omega
    rw [if_neg (by omega),if_neg (by omega),if_neg (by omega),if_neg (by omega),if_neg (by omega),
      if_pos (by omega),hlow]

theorem utf8ToUcs_lead {c : UInt8} {buf : Bytes} (h : utf8ToUcs (c :: buf) ≠ none) :
    ∃ n ≤ 5, Marks n c := by
  have hc := c.toNat_lt
  simp only [utf8ToUcs,Nat.shiftRight_eq_div_pow] at h
  split_ifs at h
  · exact ⟨0,by omega,by simp only [Marks,mark,leads]; norm_num; omega⟩
  · exact ⟨1,by omega,by simp only [Marks,mark,leads]; norm_num; omega⟩
  · exact ⟨2,by omega,by simp only [Marks,mark,leads]; norm_num; omega⟩
  · exact ⟨3,by omega,by simp only [Marks,mark,leads]; norm_num; omega⟩
  · exact ⟨4,by omega,by simp only [Marks,mark,leads]; norm_num; omega⟩
  · exact ⟨5,by omega,by simp only [Marks,mark,leads]; norm_num; omega⟩
  · exact absurd rfl h

theorem mark_or (hn : n ≤ 5) {top : ℕ} (h : top < leads n) : mark n ||| top = mark n + top := by
  interval_cases n
  · exact (Nat.zero_or top).trans (Nat.zero_add top).symm
  · exact (Nat.two_pow_add_eq_or_of_lt (i := 5) h 6).symm
  · exact (Nat.two_pow_add_eq_or_of_lt (i := 4) h 14).symm
  · exact (Nat.two_pow_add_eq_or_of_lt (i := 3) h 30).symm
  · exact (Nat.two_pow_add_eq_or_of_lt (i := 2) h 62).symm
  · exact (Nat.two_pow_add_eq_or_of_lt (i := 1) h 126).symm

theorem mark_leads (hn : n ≤ 5) : mark n + leads n ≤ 2 ^ 8 := by
  interval_cases n <;> decide

theorem leading_toNat (hn : n ≤ 5) (h : code < room n) :
    (leading (mark n) code (6 * n)).toNat = mark n + code / 64 ^ n := by
  have hshift : code >>> (6 * n) = code / 64 ^ n := by rw [Nat.shiftRight_eq_div_pow,pow_mul]; rfl
  have htop : code / 64 ^ n < leads n := by
    rw [room,mul_comm] at h
    exact Nat.div_lt_of_lt_mul h
  have hmark := mark_leads hn
  rw [leading,hshift,mark_or hn htop,UInt8.toNat_ofNat']
  exact Nat.mod_eq_of_lt (by omega)
theorem utf8ToUcs_form (hn : n ≤ 5) (h : code < room n) (rest : Bytes) :
    utf8ToUcs (form n code ++ rest) = some (code,n + 1) := by
  have hlead := leading_toNat hn h
  have htop : code / 64 ^ n < leads n := by
    rw [room,mul_comm] at h
    exact Nat.div_lt_of_lt_mul h
  have hleads : Marks n (leading (mark n) code (6 * n)) := by
    rw [Marks,hlead]
    exact ⟨Nat.le_add_right _ _,Nat.add_lt_add_left htop _⟩
  have hlen : ¬(tailOf n code ++ rest).length < n := by
    rw [List.length_append,tailOf_length]
    omega
  rw [form,List.cons_append,utf8ToUcs_cons hn hleads,readMulti,if_neg hlen,hlead,
    Nat.add_sub_cancel_left,readTail_tailOf,Nat.div_add_mod']
  rfl

theorem utf8ToUcs_inv (h : utf8ToUcs bs = some (code,k)) :
    ∃ n ≤ 5, k = n + 1 ∧ code < room n ∧ form n code <+: bs := by
  cases bs with
  | nil => cases h
  | cons c buf =>
    obtain ⟨n,hn,hlead⟩ := utf8ToUcs_lead (by rw [h]; exact Option.some_ne_none _)
    rw [utf8ToUcs_cons hn hlead,readMulti] at h
    split_ifs at h
    obtain ⟨w,hread,hw⟩ := Option.map_eq_some_iff.mp h
    obtain ⟨rfl,rfl⟩ := Prod.mk.inj hw
    obtain ⟨hdiv,hstart⟩ := readTail_inv hread
    have hroom : w < room n := by
      rw [room]
      apply (Nat.div_lt_iff_lt_mul (by positivity)).mp
      rw [hdiv]
      have := hlead.2
      have := hlead.1
      omega
    have hhead : leading (mark n) w (6 * n) = c := by
      rw [← UInt8.toNat_inj,leading_toNat hn hroom,hdiv]
      exact Nat.add_sub_cancel' hlead.1
    refine ⟨n,hn,rfl,hroom,?_⟩
    rw [form,hhead]
    exact (List.prefix_cons_inj c).mpr hstart

def Refused (code : ℕ) : Prop := (0xD800 ≤ code ∧ code ≤ 0xDFFF) ∨ (0xFFFE ≤ code ∧ code ≤ 0xFFFF)

def Shortest (n code : ℕ) : Prop := code < room n ∧ ∀ i < n, room i ≤ code

theorem form_zero (code : ℕ) : form 0 code = [UInt8.ofNat code] := by
  rw [form,leading,mark,if_pos rfl,Nat.zero_or]
  rfl

theorem ucsToUtf8_shortest (hn : n ≤ 5) (hcode : ¬Refused code) (h : Shortest n code) :
    ucsToUtf8 code = some (form n code) := by
  obtain ⟨hroom,hleast⟩ := h
  have hsurrogate : ¬(0xD800 ≤ code ∧ code ≤ 0xDFFF) := fun h => hcode (Or.inl h)
  have hnone : ¬(0xFFFE ≤ code ∧ code ≤ 0xFFFF) := fun h => hcode (Or.inr h)
  rw [ucsToUtf8,if_neg hsurrogate,if_neg hnone]
  interval_cases n
  · have hhi : code < 0x80 := hroom
    rw [if_pos (by omega),form_zero]
  · have hhi : code < 0x800 := hroom
    have hlo : 0x80 ≤ code := hleast 0 (by decide)
    rw [if_neg (by omega),if_pos (by omega)]
    rfl
  · have hhi : code < 0x10000 := hroom
    have hlo : 0x800 ≤ code := hleast 1 (by decide)
    rw [if_neg (by omega),if_neg (by omega),if_pos (by omega)]
    rfl
  · have hhi : code < 0x200000 := hroom
    have hlo : 0x10000 ≤ code := hleast 2 (by decide)
    rw [if_neg (by omega),if_neg (by omega),if_neg (by omega),if_pos (by omega)]
    rfl
  · have hhi : code < 0x4000000 := hroom
    have hlo : 0x200000 ≤ code := hleast 3 (by decide)
    rw [if_neg (by omega),if_neg (by omega),if_neg (by omega),if_neg (by omega),if_pos (by omega)]
    rfl
  · have hhi : code < 0x80000000 := hroom
    have hlo : 0x4000000 ≤ code := hleast 4 (by decide)
    rw [if_neg (by omega),if_neg (by omega),if_neg (by omega),if_neg (by omega),if_neg (by omega),
      if_pos (by omega)]
    rfl

theorem exists_shortest (h : code < 2 ^ 31) : ∃ n ≤ 5, Shortest n code := by
  have hex : ∃ n, code < room n := ⟨5,h⟩
  refine ⟨Nat.find hex,Nat.find_min' hex h,Nat.find_spec hex,?_⟩
  intro i hi
  exact not_lt.mp (Nat.find_min hex hi)

theorem ucsToUtf8_none (h : Refused code ∨ 2 ^ 31 ≤ code) : ucsToUtf8 code = none := by
  rw [ucsToUtf8]
  by_cases hs : 0xD800 ≤ code ∧ code ≤ 0xDFFF
  · rw [if_pos hs]
  · rw [if_neg hs]
    by_cases hn : 0xFFFE ≤ code ∧ code ≤ 0xFFFF
    · rw [if_pos hn]
    · have hbig : 2 ^ 31 ≤ code := by
        rcases h with (h | h) | h
        · exact absurd h hs
        · exact absurd h hn
        · exact h
      rw [if_neg hn,if_neg (by omega),if_neg (by omega),if_neg (by omega),if_neg (by omega),
        if_neg (by omega),if_neg (by omega)]

theorem ucsToUtf8_inv (h : ucsToUtf8 code = some bs) :
    ¬Refused code ∧ ∃ n ≤ 5, Shortest n code ∧ bs = form n code := by
  have hcode : ¬Refused code := fun hr => by rw [ucsToUtf8_none (Or.inl hr)] at h; cases h
  have hlt : code < 2 ^ 31 := by
    by_contra hle
    rw [ucsToUtf8_none (Or.inr (not_lt.mp hle))] at h
    cases h
  obtain ⟨n,hn,hshort⟩ := exists_shortest hlt
  rw [ucsToUtf8_shortest hn hcode hshort] at h
  exact ⟨hcode,n,hn,hshort,(Option.some.inj h).symm⟩

theorem form_length (n code : ℕ) : (form n code).length = n + 1 := by
  rw [form,List.length_cons,tailOf_length]

theorem ucsToUtf8_bytes (h : ucsToUtf8 code = some bs) :
    (code < 0x80 ∧ bs = [UInt8.ofNat code]) ∨ ∀ b ∈ bs, 0x80 ≤ b.toNat := by
  obtain ⟨-,n,hn,hshort,rfl⟩ := ucsToUtf8_inv h
  cases n with
  | zero => exact Or.inl ⟨hshort.1,form_zero code⟩
  | succ n =>
    have hle : n ≤ 4 := by omega
    have hmark : 0x80 ≤ mark (n + 1) := by interval_cases n <;> decide
    right
    rw [form,List.forall_mem_cons,leading_toNat hn hshort.1]
    exact ⟨hmark.trans (Nat.le_add_right _ _),tailOf_high⟩

theorem ucs_round_trip (code : ℕ) :
    (∀ out rest, ucsToUtf8 code = some out → utf8ToUcs (out ++ rest) = some (code,out.length)) ∧
      ∀ bs k, utf8ToUcs bs = some (code,k) →
        (Refused code ∧ ucsToUtf8 code = none) ∨
          ∃ out, ucsToUtf8 code = some out ∧ out.length ≤ k ∧ (out.length = k ↔ bs.take k = out) := by
  constructor
  · intro out rest h
    obtain ⟨-,n,hn,hshort,rfl⟩ := ucsToUtf8_inv h
    rw [utf8ToUcs_form hn hshort.1,form_length]
  · intro bs k h
    obtain ⟨n,hn,rfl,hroom,hstart⟩ := utf8ToUcs_inv h
    by_cases hcode : Refused code
    · exact Or.inl ⟨hcode,ucsToUtf8_none (Or.inl hcode)⟩
    · have hlt : code < 2 ^ 31 := by
        interval_cases n <;> exact lt_of_lt_of_le hroom (by decide)
      obtain ⟨i,hi,hshort⟩ := exists_shortest hlt
      have hle : i ≤ n := by
        by_contra hgt
        exact absurd hroom (not_lt.mpr (hshort.2 n (not_le.mp hgt)))
      have htake : bs.take (n + 1) = form n code := by
        rw [← form_length n code]
        exact (List.prefix_iff_eq_take.mp hstart).symm
      refine Or.inr ⟨form i code,ucsToUtf8_shortest hi hcode hshort,?_,?_⟩
      · rw [form_length]
        omega
      · rw [htake,form_length]
        constructor
        · intro heq
          rw [Nat.succ.inj heq]
        · intro heq
          have hlen := congrArg List.length heq
          rw [form_length,form_length] at hlen
          exact hlen.symm

end forms

end Toml
