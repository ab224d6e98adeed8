import KvmInfo.Toml.Strings

namespace Toml
open Caps

def upperT : UInt8 := 0x54
def upperZ : UInt8 := 0x5A

def digitByte (n : ℕ) : UInt8 := UInt8.ofNat (0x30 + n % 10)

def two (n : ℕ) : Bytes := [digitByte (n / 10),digitByte n]

structure Day where
  year : ℕ
  month : ℕ
  day : ℕ

inductive Zone where
  | unset
  | utc
  | hours (sign : UInt8) (hour : ℕ)
  | minutes (sign : UInt8) (hour minute : ℕ)

structure Clock where
  hour : ℕ
  minute : ℕ
  second : ℕ
  fraction : Option Bytes
  zone : Zone

inductive Stamp where
  | date (day : Day)
  | time (clock : Clock)
  | both (day : Day) (clock : Clock)

def Day.text (d : Day) : Bytes :=
  two (d.year / 100) ++ two d.year ++ minus :: two d.month ++ minus :: two d.day

def Zone.text : Zone → Bytes
  | .unset => []
  | .utc => [upperZ]
  | .hours sign hour => sign :: two hour
  | .minutes sign hour minute => sign :: two hour ++ colon :: two minute

def fractionText (fraction : Option Bytes) : Bytes :=
  match fraction with
  | none => []
  | some digits => dot :: digits

def Clock.text (c : Clock) : Bytes :=
  two c.hour ++ colon :: two c.minute ++ colon :: two c.second ++
    (fractionText c.fraction ++ c.zone.text)

def Stamp.text : Stamp → Bytes
  | .date d => d.text
  | .time c => c.text
  | .both d c => d.text ++ upperT :: c.text

def Day.Fits (d : Day) : Prop := d.year < 10000 ∧ d.month < 100 ∧ d.day < 100

def Zone.Fits : Zone → Prop
  | .unset => True
  | .utc => True
  | .hours sign _ => sign = plus ∨ sign = minus
  | .minutes sign _ _ => sign = plus ∨ sign = minus

def Clock.Fits (c : Clock) : Prop :=
  c.hour < 100 ∧ c.minute < 100 ∧ c.second < 100 ∧
    (∀ digits ∈ c.fraction, ∀ b ∈ digits, isDigit b = true) ∧ c.zone.Fits

def Stamp.Fits : Stamp → Prop
  | .date d => d.Fits
  | .time c => c.Fits
  | .both d c => d.Fits ∧ c.Fits

-- The field z points at the text of the zone, where there is one.
def Zone.field : Zone → Option Bytes
  | .unset => none
  | zone => some zone.text

def Day.put (d : Day) (ts : Timestamp) : Timestamp :=
  { ts with year := some d.year, month := some d.month, day := some d.day }

def Clock.put (c : Clock) (ts : Timestamp) : Timestamp :=
  { ts with hour := some c.hour, minute := some c.minute, second := some c.second, z := c.zone.field }

def Stamp.fields : Stamp → Timestamp
  | .date d => d.put noStamp
  | .time c => c.put noStamp
  | .both d c => c.put (d.put noStamp)

section digits
variable {sep : UInt8} {a b n i val x : ℕ} {p : Bytes}

theorem digitByte_digit (n : ℕ) :
    isDigit (digitByte n) = true ∧ (digitByte n).toNat - 0x30 = n % 10 := by
  have hlt : n % 10 < 10 := Nat.mod_lt _ (by decide)
  rw [digitByte]
  generalize n % 10 = d at hlt ⊢
  interval_cases d <;> decide

theorem stampDigits_digit (hsep : isDigit sep = false) (d : ℕ) :
    stampDigits sep a b (n + 1) i val (digitByte d :: p) =
      stampDigits sep a b n (i + 1) (val * 10 + d % 10) p := by
  obtain ⟨hdigit,hvalue⟩ := digitByte_digit d
  have hne : digitByte d ≠ sep := by
    rintro rfl
    rw [hdigit] at hsep
    cases hsep
  rw [stampDigits,if_neg hne,if_pos hdigit,hvalue]

theorem stampDigits_two (hsep : isDigit sep = false) (hx : x < 100) :
    stampDigits sep a b (n + 2) i val (two x ++ p) =
      stampDigits sep a b n (i + 2) (val * 100 + x) p := by
  have hval : (val * 10 + x / 10 % 10) * 10 + x % 10 = val * 100 + x := by omega
  rw [two,List.cons_append,List.cons_append,List.nil_append,stampDigits_digit hsep,
    stampDigits_digit hsep,hval]

theorem stampDigits_sep (hi : i = a ∨ i = b) :
    stampDigits sep a b (n + 1) i val (sep :: p) = stampDigits sep a b n (i + 1) val p := by
  rw [stampDigits,if_pos rfl,if_pos hi]

end digits

section reading
variable {p : Bytes}

theorem stampDigits_day {d : Day} (h : d.Fits) (p : Bytes) :
    stampDigits minus 4 7 10 0 0 (d.text ++ p) =
      some ((d.year * 100 + d.month) * 100 + d.day,p) := by
  obtain ⟨hy,hm,hd⟩ := h
  have hsep : isDigit minus = false := by decide
  have hyear : two (d.year / 100) ++ two d.year =
      two (d.year / 100) ++ two (d.year % 100) := by
    have hlow : d.year / 10 % 10 = d.year % 100 / 10 % 10 ∧ d.year % 10 = d.year % 100 % 10 := by omega
    rw [two,two,two,digitByte,digitByte,digitByte,digitByte,digitByte,digitByte,hlow.1,hlow.2]
  have hval : (0 * 100 + d.year / 100) * 100 + d.year % 100 = d.year := by omega
  rw [Day.text,hyear]
  simp only [List.append_assoc,List.cons_append]
  rw [stampDigits_two hsep (by omega),stampDigits_two hsep (by omega),stampDigits_sep (Or.inl rfl),
    stampDigits_two hsep hm,stampDigits_sep (Or.inr rfl),stampDigits_two hsep hd,hval]
  rfl

theorem stampDigits_clock {c : Clock} (h : c.Fits) (p : Bytes) :
    stampDigits colon 2 5 8 0 0
        (two c.hour ++ colon :: two c.minute ++ colon :: two c.second ++ p) =
      some ((c.hour * 100 + c.minute) * 100 + c.second,p) := by
  obtain ⟨hh,hm,hs,-⟩ := h
  have hsep : isDigit colon = false := by decide
  have hval : 0 * 100 + c.hour = c.hour := by omega
  simp only [List.append_assoc,List.cons_append]
  rw [stampDigits_two hsep hh,stampDigits_sep (Or.inl rfl),stampDigits_two hsep hm,
    stampDigits_sep (Or.inr rfl),stampDigits_two hsep hs,hval]
  rfl

theorem Day.text_length (d : Day) : d.text.length = 10 := rfl

theorem split_hundreds {x y z : ℕ} (hy : y < 100) (hz : z < 100) :
    ((x * 100 + y) * 100 + z) % 100 = z ∧ ((x * 100 + y) * 100 + z) / 100 % 100 = y ∧
      ((x * 100 + y) * 100 + z) / 100 / 100 = x := by
  omega

theorem stampDate_day {d : Day} (h : d.Fits) {p q : Bytes}
    (hq : p = [] ∧ q = [] ∨ p = upperT :: q) : stampDate (d.text ++ p) = some (d.put noStamp,q) := by
  have hdash : 4 < (d.text ++ p).length ∧ (d.text ++ p)[4]? = some minus := by
    rw [List.length_append,d.text_length]
    exact ⟨by omega,rfl⟩
  obtain ⟨hday,hmonth,hyear⟩ := split_hundreds (x := d.year) h.2.1 h.2.2
  rw [stampDate,if_pos hdash,stampDigits_day h]
  simp only [bind,Option.bind_some,hday,hmonth,hyear]
  rcases hq with ⟨rfl,rfl⟩ | rfl <;> rfl

theorem stampDate_clock (c : Clock) : stampDate c.text = some (noStamp,c.text) := by
  have hfour : c.text[4]? = some (digitByte c.minute) := rfl
  have hne : digitByte c.minute ≠ minus := by
    intro heq
    have hdigit := (digitByte_digit c.minute).1
    rw [heq] at hdigit
    exact absurd hdigit (by decide)
  rw [stampDate,hfour,if_neg]
  rintro ⟨-,heq⟩
  exact hne (Option.some.inj heq)

theorem two_digits (n : ℕ) : ∀ b ∈ two n, isDigit b = true := by
  rw [two,List.forall_mem_cons,List.forall_mem_singleton]
  exact ⟨(digitByte_digit _).1,(digitByte_digit _).1⟩

theorem skipFraction_text {fraction : Option Bytes} {zone : Zone}
    (hfraction : ∀ digits ∈ fraction, ∀ b ∈ digits, isDigit b = true) (hzone : zone.Fits) :
    skipFraction (fractionText fraction ++ zone.text) = zone.text := by
  have hhead : zone.text.head? ≠ some dot ∧ zone.text.dropWhile isDigit = zone.text := by
    cases zone with
    | unset => exact ⟨by decide,rfl⟩
    | utc => exact ⟨by decide,rfl⟩
    | hours sign hour => rcases hzone with rfl | rfl <;> exact ⟨by simp [Zone.text,plus,minus,dot],rfl⟩
    | minutes sign hour minute =>
      rcases hzone with rfl | rfl <;> exact ⟨by simp [Zone.text,plus,minus,dot],rfl⟩
  cases fraction with
  | none =>
    rw [fractionText,List.nil_append,skipFraction,if_neg hhead.1]
  | some digits =>
    have hdigits := hfraction digits rfl
    have hdot : (dot :: (digits ++ zone.text)).head? = some dot := rfl
    rw [fractionText,List.cons_append,skipFraction,if_pos hdot,List.tail_cons,
      List.dropWhile_append_of_pos hdigits,hhead.2]

theorem stampOffset_two (n : ℕ) (p : Bytes) : stampOffset (two n ++ p) = some (two n,p) := by
  have hfirst := (digitByte_digit (n / 10)).1
  have hsecond := (digitByte_digit n).1
  rw [two,List.cons_append,List.cons_append,List.nil_append,stampOffset,hfirst,hsecond]
  rfl

theorem stampZone_text {zone : Zone} (h : zone.Fits) : stampZone zone.text = some (zone.text,[]) := by
  cases zone with
  | unset => rfl
  | utc => rfl
  | hours sign hour =>
    have hsign : sign = plus ∨ sign = minus := h
    have hz : sign ≠ 0x5A := by rcases hsign with rfl | rfl <;> decide
    have hoffset := stampOffset_two hour []
    rw [List.append_nil] at hoffset
    rw [Zone.text,stampZone,if_neg hz,if_pos hsign,hoffset]
    rfl
  | minutes sign hour minute =>
    have hsign : sign = plus ∨ sign = minus := h
    have hz : sign ≠ 0x5A := by rcases hsign with rfl | rfl <;> decide
    have hoffset := stampOffset_two minute []
    rw [List.append_nil] at hoffset
    rw [Zone.text,List.cons_append,stampZone,if_neg hz,if_pos hsign,stampOffset_two]
    simp only [bind,Option.bind_some,if_true,hoffset]
    rfl

theorem Clock.text_length (c : Clock) : 8 ≤ c.text.length := by
  rw [Clock.text,List.length_append]
  exact Nat.le_add_right 8 _

theorem tomlRtots_clock {src : Bytes} {ts : Timestamp} {c : Clock} (hc : c.Fits) (hz : ts.z = none)
    (hdate : stampDate src = some (ts,c.text)) : tomlRtots src = some (c.put ts) := by
  have hlength := c.text_length
  have hne : c.text ≠ [] := List.ne_nil_of_length_pos (by omega)
  have hdigits : stampDigits colon 2 5 8 0 0 c.text =
      some ((c.hour * 100 + c.minute) * 100 + c.second,fractionText c.fraction ++ c.zone.text) :=
    stampDigits_clock hc _
  obtain ⟨hsecond,hminute,hhour⟩ := split_hundreds (x := c.hour) hc.2.1 hc.2.2.1
  have hfraction := skipFraction_text hc.2.2.2.1 hc.2.2.2.2
  have hzone := stampZone_text hc.2.2.2.2
  rw [tomlRtots,hdate]
  simp only [bind,Option.bind_some,if_neg hne,if_neg (not_lt.mpr hlength),hdigits,hsecond,hminute,
    hhour,hfraction,hzone]
  cases hkind : c.zone with
  | unset =>
    rw [Clock.put,hkind,Zone.field,← hz]
    rfl
  | utc =>
    rw [Clock.put,hkind]
    rfl
  | hours sign hour =>
    rw [Clock.put,hkind]
    rfl
  | minutes sign hour minute =>
    rw [Clock.put,hkind]
    rfl

theorem tomlRtots_text {s : Stamp} (h : s.Fits) : tomlRtots s.text = some s.fields := by
  cases s with
  | date d =>
    have hdate := stampDate_day h (Or.inl ⟨rfl,rfl⟩)
    rw [List.append_nil] at hdate
    rw [Stamp.text,tomlRtots,hdate]
    rfl
  | time c => exact tomlRtots_clock h rfl (stampDate_clock c)
  | both d c => exact tomlRtots_clock h.2 rfl (stampDate_day h.1 (Or.inr rfl))

end reading

section writing

def stampByte (c : UInt8) : Bool := isDigit c || [minus,colon,dot,plus,upperT,upperZ].contains c

theorem stampByte_bare {c : UInt8} (h : stampByte c = true) :
    bareByte false c = true ∧ c ≠ 0 ∧ c ≠ squote ∧ c ≠ dquote := by
  rw [stampByte,Bool.or_eq_true] at h
  rcases h with hdigit | hmem
  · have hbare : bareByte false c = true := by simp [bareByte,hdigit]
    have hne : ∀ b, isDigit b = false → c ≠ b := by
      rintro b hb rfl
      rw [hb] at hdigit
      cases hdigit
    exact ⟨hbare,hne 0 rfl,hne squote rfl,hne dquote rfl⟩
  · simp only [List.contains_eq_mem,decide_eq_true_eq,List.mem_cons,List.not_mem_nil,or_false] at hmem
    rcases hmem with rfl | rfl | rfl | rfl | rfl | rfl <;> decide

theorem stampByte_two (n : ℕ) : ∀ c ∈ two n, stampByte c = true := by
  intro c hc
  rw [stampByte,two_digits n c hc]
  rfl

theorem day_bytes (d : Day) : ∀ c ∈ d.text, stampByte c = true := by
  have hminus : stampByte minus = true := by decide
  simp only [Day.text,List.forall_mem_append,List.forall_mem_cons]
  exact ⟨⟨⟨stampByte_two _,stampByte_two _⟩,hminus,stampByte_two _⟩,hminus,stampByte_two _⟩

theorem zone_bytes {zone : Zone} (h : zone.Fits) : ∀ c ∈ zone.text, stampByte c = true := by
  have hsign : ∀ sign, sign = plus ∨ sign = minus → stampByte sign = true := by
    rintro sign (rfl | rfl) <;> decide
  have hcolon : stampByte colon = true := by decide
  cases zone with
  | unset => simp [Zone.text]
  | utc => exact List.forall_mem_singleton.mpr (by decide)
  | hours sign hour => exact List.forall_mem_cons.mpr ⟨hsign sign h,stampByte_two hour⟩
  | minutes sign hour minute =>
    simp only [Zone.text,List.cons_append,List.forall_mem_cons,List.forall_mem_append]
    exact ⟨hsign sign h,stampByte_two hour,hcolon,stampByte_two minute⟩

theorem clock_bytes {c : Clock} (h : c.Fits) : ∀ b ∈ c.text, stampByte b = true := by
  obtain ⟨-,-,-,hfraction,hzone⟩ := h
  have hcolon : stampByte colon = true := by decide
  have hpart : ∀ b ∈ fractionText c.fraction, stampByte b = true := by
    cases hdigits : c.fraction with
    | none => simp [fractionText]
    | some digits =>
      rw [fractionText,List.forall_mem_cons]
      refine ⟨by decide,?_⟩
      intro b hb
      rw [stampByte,hfraction digits hdigits b hb]
      rfl
  simp only [Clock.text,List.forall_mem_append,List.forall_mem_cons]
  exact ⟨⟨⟨stampByte_two _,hcolon,stampByte_two _⟩,hcolon,stampByte_two _⟩,hpart,zone_bytes hzone⟩

theorem stamp_bytes {s : Stamp} (h : s.Fits) : ∀ b ∈ s.text, stampByte b = true := by
  cases s with
  | date d => exact day_bytes d
  | time c => exact clock_bytes h
  | both d c =>
    rw [Stamp.text,List.forall_mem_append,List.forall_mem_cons]
    exact ⟨day_bytes d,by decide,clock_bytes h.2⟩

theorem stamp_ne_nil (s : Stamp) : s.text ≠ [] := by
  cases s <;> exact List.cons_ne_nil _ _

theorem scans_stamp {s : Stamp} (h : s.Fits) : Scans false s.text ∧ 0 ∉ s.text := by
  have hbytes := stamp_bytes h
  obtain ⟨c,w,htext⟩ := List.exists_cons_of_ne_nil (stamp_ne_nil s)
  rw [htext] at hbytes ⊢
  obtain ⟨-,-,hs,hd⟩ := stampByte_bare (hbytes c List.mem_cons_self)
  have hstart : ∀ q : UInt8, c ≠ q → startsWith (c :: w) [q,q,q] = false := by
    intro q hq
    rw [startsWith,Bool.eq_false_iff]
    intro hstart
    exact hq (List.cons_prefix_cons.mp (List.isPrefixOf_iff_prefix.mp hstart)).1.symm
  have hhead : ∀ q : UInt8, c ≠ q → (c :: w).head? ≠ some q :=
    fun q hq heq => hq (Option.some.inj heq)
  have hdrop : (c :: w).dropWhile (bareByte false) = [] := by
    rw [List.dropWhile_eq_nil_iff]
    exact fun b hb => (stampByte_bare (hbytes b hb)).1
  refine ⟨⟨List.cons_ne_nil _ _,?_⟩,?_⟩
  · rw [scanEnd,hstart squote hs,hstart dquote hd,if_neg Bool.false_ne_true,
      if_neg Bool.false_ne_true,if_neg (hhead squote hs),if_neg (hhead dquote hd),hdrop]
  · intro hzero
    exact (stampByte_bare (hbytes 0 hzero)).2.1 rfl

def stamps (l : List (Bytes × Stamp)) : Entries := raws (l.map fun e => (e.1,e.2.text))

end writing

section witness

def release : Stamp :=
  .both ⟨1979,5,27⟩ ⟨7,32,0,some (cstr "125"),.minutes minus 8 0⟩

theorem release_fits : release.Fits := by
  have hdigits : ∀ b ∈ cstr "125", isDigit b = true := by decide +kernel
  have hfraction : ∀ digits ∈ some (cstr "125"), ∀ b ∈ digits, isDigit b = true := by
    rintro _ ⟨⟩
    exact hdigits
  exact ⟨⟨by decide,by decide,by decide⟩,by decide,by decide,by decide,hfraction,Or.inr rfl⟩

end witness

end Toml
