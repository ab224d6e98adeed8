import KvmInfo.Library.Fuel
import KvmInfo.Toml.Parsed

namespace Toml
open Exec Caps

section approx
variable {strtod : Bytes → Bool}

theorem skipNewlines_approx (fuel : ℕ) :
    Approx .outOfFuel (skipNewlines fuel) (skipNewlines (fuel + 1)) := by
  induction fuel with
  | zero => exact approx_throw
  | succ fuel ih =>
    rw [skipNewlines,skipNewlines]
    exact approx_bind_left fun _ => (approx_bind_left fun _ => ih).ite (Approx.refl _)

structure ParserApprox (strtod : Bytes → Bool) (fuel : ℕ) : Prop where
  table : ∀ t, Approx .outOfFuel (parseTable strtod fuel t) (parseTable strtod (fuel + 1) t)
  tableLoop : ∀ t,
    Approx .outOfFuel (parseTableLoop strtod fuel t) (parseTableLoop strtod (fuel + 1) t)
  array : ∀ a, Approx .outOfFuel (parseArray strtod fuel a) (parseArray strtod (fuel + 1) a)
  arrayLoop : ∀ a,
    Approx .outOfFuel (parseArrayLoop strtod fuel a) (parseArrayLoop strtod (fuel + 1) a)
  element : ∀ a, Approx .outOfFuel (parseElement strtod fuel a) (parseElement strtod (fuel + 1) a)
  keyval : ∀ t, Approx .outOfFuel (parseKeyval strtod fuel t) (parseKeyval strtod (fuel + 1) t)

variable {fuel : ℕ}

theorem parseTable_approx (ih : ParserApprox strtod fuel) (t : Table) :
    Approx .outOfFuel (parseTable strtod (fuel + 1) t) (parseTable strtod (fuel + 2) t) := by
  rw [parseTable,parseTable]
  exact approx_bind_left fun _ => (ih.tableLoop t).bind fun _ => Approx.refl _

theorem parseTableLoop_approx (ih : ParserApprox strtod fuel) (t : Table) :
    Approx .outOfFuel (parseTableLoop strtod (fuel + 1) t) (parseTableLoop strtod (fuel + 2) t) := by
  rw [parseTableLoop,parseTableLoop]
  refine (skipNewlines_approx fuel).bind fun _ => approx_bind_left fun _ => (Approx.refl _).ite ?_
  refine approx_bind_left fun _ => Approx.ite ?_ (Approx.refl _)
  refine (ih.keyval t).bind fun r => (skipNewlines_approx fuel).bind fun _ => ?_
  exact approx_bind_left fun _ => (approx_bind_left fun _ => ih.tableLoop r).ite (Approx.refl _)

theorem parseArray_approx (ih : ParserApprox strtod fuel) (a : Arr) :
    Approx .outOfFuel (parseArray strtod (fuel + 1) a) (parseArray strtod (fuel + 2) a) := by
  rw [parseArray,parseArray]
  exact approx_bind_left fun _ => (ih.arrayLoop a).bind fun _ => Approx.refl _

theorem parseArrayLoop_approx (ih : ParserApprox strtod fuel) (a : Arr) :
    Approx .outOfFuel (parseArrayLoop strtod (fuel + 1) a) (parseArrayLoop strtod (fuel + 2) a) := by
  rw [parseArrayLoop,parseArrayLoop]
  refine (skipNewlines_approx fuel).bind fun _ => approx_bind_left fun _ => (Approx.refl _).ite ?_
  refine (ih.element a).bind fun r => (skipNewlines_approx fuel).bind fun _ => ?_
  exact approx_bind_left fun _ => (approx_bind_left fun _ => ih.arrayLoop r).ite (Approx.refl _)

theorem parseElement_approx (ih : ParserApprox strtod fuel) (a : Arr) :
    Approx .outOfFuel (parseElement strtod (fuel + 1) a) (parseElement strtod (fuel + 2) a) := by
  rw [parseElement,parseElement]
  refine approx_bind_left fun s => ?_
  cases s.tok with
  | LBRACKET => exact (Approx.refl _).ite ((ih.array _).bind fun _ => Approx.refl _)
  | LBRACE => exact (Approx.refl _).ite ((ih.table _).bind fun _ => Approx.refl _)
  | _ => exact Approx.refl _

theorem parseKeyval_approx (ih : ParserApprox strtod fuel) (t : Table) :
    Approx .outOfFuel (parseKeyval strtod (fuel + 1) t) (parseKeyval strtod (fuel + 2) t) := by
  rw [parseKeyval,parseKeyval]
  refine approx_bind_left fun key => (Approx.refl _).ite ?_
  refine approx_bind_left fun _ => approx_bind_left fun _ => (Approx.refl _).ite ?_
  refine approx_bind_left fun _ => approx_bind_left fun s => ?_
  cases s.tok with
  | LBRACKET =>
    refine approx_bind_left fun r => approx_bind_left fun i => approx_bind_left fun b => ?_
    exact (ih.array b).bind fun _ => Approx.refl _
  | LBRACE =>
    refine approx_bind_left fun r => approx_bind_left fun b => ?_
    exact (ih.table b).bind fun _ => Approx.refl _
  | _ => exact Approx.refl _

theorem parser_approx (strtod : Bytes → Bool) (fuel : ℕ) : ParserApprox strtod fuel := by
  induction fuel with
  | zero =>
    exact ⟨fun _ => approx_throw,fun _ => approx_throw,fun _ => approx_throw,fun _ => approx_throw,
      fun _ => approx_throw,fun _ => approx_throw⟩
  | succ fuel ih =>
    exact ⟨parseTable_approx ih,parseTableLoop_approx ih,parseArray_approx ih,
      parseArrayLoop_approx ih,parseElement_approx ih,parseKeyval_approx ih⟩

theorem parseLoop_approx (fuel : ℕ) (root : Table) (curtab : Path) :
    Approx .outOfFuel (parseLoop strtod fuel root curtab)
      (parseLoop strtod (fuel + 1) root curtab) := by
  induction fuel generalizing root curtab with
  | zero => exact approx_throw
  | succ fuel ih =>
    rw [parseLoop,parseLoop]
    refine approx_bind_left fun s => (Approx.refl _).ite ?_
    cases s.tok with
    | NEWLINE => exact approx_bind_left fun _ => ih root curtab
    | STRING =>
      refine approx_bind_left fun t => ((parser_approx strtod fuel).keyval t).bind fun r => ?_
      exact approx_bind_left fun _ => (Approx.refl _).ite (approx_bind_left fun _ => ih _ _)
    | LBRACKET => exact approx_bind_left fun r => ih r.1 r.2
    | _ => exact Approx.refl _

end approx

section runs
variable {strtod : Bytes → Bool} {fuel fuel' : ℕ} {s u : Token}

theorem runs_skipNewlines_le (h : Runs (skipNewlines fuel) s () u) (hle : fuel ≤ fuel') :
    Runs (skipNewlines fuel') s () u :=
  (approx_le skipNewlines_approx hle).runs h

theorem runs_parseTableLoop_le {t r : Table} (h : Runs (parseTableLoop strtod fuel t) s r u)
    (hle : fuel ≤ fuel') : Runs (parseTableLoop strtod fuel' t) s r u :=
  (approx_le (g := fun n => parseTableLoop strtod n t)
    (fun n => (parser_approx strtod n).tableLoop t) hle).runs h

theorem runs_parseArrayLoop_le {a r : Arr} (h : Runs (parseArrayLoop strtod fuel a) s r u)
    (hle : fuel ≤ fuel') : Runs (parseArrayLoop strtod fuel' a) s r u :=
  (approx_le (g := fun n => parseArrayLoop strtod n a)
    (fun n => (parser_approx strtod n).arrayLoop a) hle).runs h

theorem runs_parseElement_le {a r : Arr} (h : Runs (parseElement strtod fuel a) s r u)
    (hle : fuel ≤ fuel') : Runs (parseElement strtod fuel' a) s r u :=
  (approx_le (g := fun n => parseElement strtod n a)
    (fun n => (parser_approx strtod n).element a) hle).runs h

theorem runs_parseKeyval_le {t r : Table} (h : Runs (parseKeyval strtod fuel t) s r u)
    (hle : fuel ≤ fuel') : Runs (parseKeyval strtod fuel' t) s r u :=
  (approx_le (g := fun n => parseKeyval strtod n t)
    (fun n => (parser_approx strtod n).keyval t) hle).runs h

theorem runs_parseLoop_le {root r : Table} {curtab : Path}
    (h : Runs (parseLoop strtod fuel root curtab) s r u) (hle : fuel ≤ fuel') :
    Runs (parseLoop strtod fuel' root curtab) s r u :=
  (approx_le (g := fun n => parseLoop strtod n root curtab)
    (fun n => parseLoop_approx n root curtab) hle).runs h

end runs

section agree
variable {strtod : Bytes → Bool} {conf : Bytes}

theorem nextToken_eof {s : Token} (heof : s.eof = true) (hat : s.At conf) (dotisspecial : Bool) :
    ∃ u, Runs (nextToken dotisspecial) s () u ∧ u.eof = true ∧ u.tok = .NEWLINE ∧ u.At conf := by
  have hptr := (hat.ends heof).2
  have hmake : makeToken dotisspecial (s.lineno + s.text.count newline) (s.ptr.drop s.len) =
      .ok (retEof (s.lineno + s.text.count newline)) := by
    rw [hptr,List.drop_nil]
    rfl
  have hrun : Runs (nextToken dotisspecial) s () (retEof (s.lineno + s.text.count newline)) := by
    refine runs_get.bind ?_
    rw [hmake]
    rfl
  exact ⟨_,hrun,rfl,rfl,((nextToken_at hat s rfl).1 () _ hrun).1⟩

theorem skipNewlines_hangs {s : Token} (heof : s.eof = true) (hat : s.At conf) (fuel : ℕ) :
    Faults (skipNewlines fuel) s .outOfFuel := by
  induction fuel generalizing s with
  | zero => rfl
  | succ fuel ih =>
    obtain ⟨u,hrun,hueof,-,huat⟩ := nextToken_eof heof hat false
    refine runs_get.bind_faults ?_
    rw [if_pos (hat.ends heof).1]
    exact hrun.bind_faults (ih hueof huat)

theorem skipNewlines_agree (conf : Bytes) (fuel n : ℕ) (hfuel : n + 1 ≤ fuel) :
    AgreeOn (Within conf n) (skipNewlines fuel) (skipNewlines (fuel + 1)) := by
  induction fuel generalizing n with
  | zero => omega
  | succ fuel ih =>
    intro s hs
    cases heof : s.eof with
    | true => exact (skipNewlines_hangs heof hs.1 _).trans (skipNewlines_hangs heof hs.1 _).symm
    | false =>
      have hn := hs.pos heof
      rw [skipNewlines,skipNewlines]
      refine agree_if (P := fun u => u = s) ?_ (AgreeOn.refl _) s rfl
      refine agree_bind_left (nextToken_eats fun u hu => ?_) fun _ => ih (n - 1) (by omega)
      obtain ⟨rfl,htok⟩ := hu
      exact ⟨hs,by simp [htok],heof⟩

theorem Facing.pos {typ : TokenType} {n : ℕ} {s : Token} (h : Facing conf typ n s)
    (hn : typ ≠ .NEWLINE) : 1 ≤ n :=
  h.1.pos (h.1.1.not_eof (h.2 ▸ hn))

structure ParserStable (strtod : Bytes → Bool) (conf : Bytes) (fuel : ℕ) : Prop where
  table : ∀ n t, t.Valid strtod → 3 * n + 2 ≤ fuel →
    AgreeOn (Facing conf .LBRACE n) (parseTable strtod fuel t) (parseTable strtod (fuel + 1) t)
  tableLoop : ∀ n t, t.Valid strtod → 3 * n + 4 ≤ fuel →
    AgreeOn (Within conf n) (parseTableLoop strtod fuel t) (parseTableLoop strtod (fuel + 1) t)
  array : ∀ n a, a.Valid strtod → 3 * n + 2 ≤ fuel →
    AgreeOn (Facing conf .LBRACKET n) (parseArray strtod fuel a) (parseArray strtod (fuel + 1) a)
  arrayLoop : ∀ n a, a.Valid strtod → 3 * n + 4 ≤ fuel →
    AgreeOn (Within conf n) (parseArrayLoop strtod fuel a) (parseArrayLoop strtod (fuel + 1) a)
  element : ∀ n a, a.Valid strtod → 3 * n + 3 ≤ fuel →
    AgreeOn (Within conf n) (parseElement strtod fuel a) (parseElement strtod (fuel + 1) a)
  keyval : ∀ n t, t.Valid strtod → 3 * n + 3 ≤ fuel →
    AgreeOn (Facing conf .STRING n) (parseKeyval strtod fuel t) (parseKeyval strtod (fuel + 1) t)

variable {fuel n : ℕ} {t : Table} {a : Arr}

theorem parseTable_agree (ih : ParserStable strtod conf fuel) (ht : t.Valid strtod)
    (hfuel : 3 * n + 2 ≤ fuel + 1) :
    AgreeOn (Facing conf .LBRACE n) (parseTable strtod (fuel + 1) t)
      (parseTable strtod (fuel + 2) t) := by
  intro s hs
  have hn := hs.pos (by decide)
  rw [parseTable,parseTable]
  refine agree_bind_left (eatToken_eats (n := n) (by decide) (by decide) fun _ h => h)
    (fun _ => ?_) s hs
  exact (ih.tableLoop (n - 1) t ht (by omega)).bind
    ((parser_spec strtod conf fuel).tableLoop (n - 1) t ht) fun _ => AgreeOn.refl _

theorem parseTableLoop_agree (ih : ParserStable strtod conf fuel) (ht : t.Valid strtod)
    (hfuel : 3 * n + 4 ≤ fuel + 1) :
    AgreeOn (Within conf n) (parseTableLoop strtod (fuel + 1) t)
      (parseTableLoop strtod (fuel + 2) t) := by
  have hskip := skipNewlines_agree conf fuel n (by omega)
  have hspec := parser_spec strtod conf fuel
  rw [parseTableLoop,parseTableLoop]
  refine hskip.bind (skipNewlines_within fuel) fun _ => agree_if (AgreeOn.refl _) ?_
  refine agree_if ?_ (AgreeOn.refl _)
  refine ((ih.keyval n t ht (by omega)).pre fun s hs => ⟨hs.1.1,hs.2⟩).bind
    ((hspec.keyval n t ht).pre fun s hs => ⟨hs.1.1,hs.2⟩) fun r => ?_
  intro s hs
  refine (hskip.pre (at_state (hs.1.mono (Nat.sub_le n 1)))).bind
    ((skipNewlines_within fuel).pre (at_state (hs.1.mono (Nat.sub_le n 1)))) (fun _ => ?_) s rfl
  refine agree_if ?_ (AgreeOn.refl _)
  intro u hu
  have hn := Facing.pos hu (by decide)
  exact agree_bind_left (eatToken_eats (n := n) (by decide) (by decide) fun _ h => h)
    (fun _ => ih.tableLoop (n - 1) r hs.2.1 (by omega)) u hu

theorem parseArray_agree (ih : ParserStable strtod conf fuel) (ha : a.Valid strtod)
    (hfuel : 3 * n + 2 ≤ fuel + 1) :
    AgreeOn (Facing conf .LBRACKET n) (parseArray strtod (fuel + 1) a)
      (parseArray strtod (fuel + 2) a) := by
  intro s hs
  have hn := hs.pos (by decide)
  rw [parseArray,parseArray]
  refine agree_bind_left (eatToken_eats (n := n) (by decide) (by decide) fun _ h => h)
    (fun _ => ?_) s hs
  exact (ih.arrayLoop (n - 1) a ha (by omega)).bind
    ((parser_spec strtod conf fuel).arrayLoop (n - 1) a ha) fun _ => AgreeOn.refl _

theorem parseArrayLoop_agree (ih : ParserStable strtod conf fuel) (ha : a.Valid strtod)
    (hfuel : 3 * n + 4 ≤ fuel + 1) :
    AgreeOn (Within conf n) (parseArrayLoop strtod (fuel + 1) a)
      (parseArrayLoop strtod (fuel + 2) a) := by
  have hskip := skipNewlines_agree conf fuel n (by omega)
  have hspec := parser_spec strtod conf fuel
  rw [parseArrayLoop,parseArrayLoop]
  refine hskip.bind (skipNewlines_within fuel) fun _ => agree_if (AgreeOn.refl _) ?_
  refine ((ih.element n a ha (by omega)).pre fun s hs => hs.1).bind
    ((hspec.element n a ha).pre fun s hs => hs.1) fun r => ?_
  intro s hs
  refine (hskip.pre (at_state hs.1)).bind ((skipNewlines_within fuel).pre (at_state hs.1))
    (fun _ => ?_) s rfl
  refine agree_if ?_ (AgreeOn.refl _)
  intro u hu
  have hn := Facing.pos hu (by decide)
  exact agree_bind_left (eatToken_eats (n := n) (by decide) (by decide) fun _ h => h)
    (fun _ => ih.arrayLoop (n - 1) r hs.2.1 (by omega)) u hu

theorem parseElement_agree (ih : ParserStable strtod conf fuel)
    (hfuel : 3 * n + 3 ≤ fuel + 1) :
    AgreeOn (Within conf n) (parseElement strtod (fuel + 1) a)
      (parseElement strtod (fuel + 2) a) := by
  have hspec := parser_spec strtod conf fuel
  rw [parseElement,parseElement]
  refine agree_get fun s hs => ?_
  cases htok : s.tok with
  | LBRACKET =>
    simp only []
    split_ifs
    · exact AgreeOn.refl _
    · exact ((ih.array n _ (Arr.valid_empty none) (by omega)).pre (at_state ⟨hs,htok⟩)).bind
        ((hspec.array n _ (Arr.valid_empty none)).pre (at_state ⟨hs,htok⟩)) fun _ => AgreeOn.refl _
  | LBRACE =>
    simp only []
    split_ifs
    · exact AgreeOn.refl _
    · exact ((ih.table n _ (Table.valid_empty none false) (by omega)).pre
        (at_state ⟨hs,htok⟩)).bind ((hspec.table n _ (Table.valid_empty none false)).pre
        (at_state ⟨hs,htok⟩)) fun _ => AgreeOn.refl _
  | _ => exact AgreeOn.refl _

theorem lift_agree {α β : Type} {P : Token → Prop} {r : Except Error α} {f f' : α → Parser β}
    (h : ∀ a, r = .ok a → AgreeOn P (f a) (f' a)) : AgreeOn P (lift r >>= f) (lift r >>= f') := by
  cases r with
  | ok a => exact h a rfl
  | error e => exact AgreeOn.refl _

theorem parseKeyval_agree (ih : ParserStable strtod conf fuel) (ht : t.Valid strtod)
    (hfuel : 3 * n + 3 ≤ fuel + 1) :
    AgreeOn (Facing conf .STRING n) (parseKeyval strtod (fuel + 1) t)
      (parseKeyval strtod (fuel + 2) t) := by
  have hspec := parser_spec strtod conf fuel
  rw [parseKeyval,parseKeyval]
  refine agree_get fun key hkey => ?_
  rw [if_neg (not_not.mpr hkey.2),if_neg (not_not.mpr hkey.2)]
  refine agree_bind_left (eatToken_within (at_state hkey)) fun _ => ?_
  refine agree_if (AgreeOn.refl _) ?_
  refine agree_bind_left (eatToken_eats (n := n) (by decide) (by decide)
    fun s hs => ⟨hs.1,not_not.mp hs.2⟩) fun _ => ?_
  refine agree_get fun s hs => ?_
  cases htok : s.tok with
  | LBRACKET =>
    refine lift_agree fun r hr => ?_
    obtain ⟨t',dest⟩ := r
    obtain ⟨hvt,-,hdest,hsome⟩ := createKeyarray_ok ht hr
    obtain ⟨i,rfl⟩ := Option.ne_none_iff_exists'.mp (hsome rfl)
    obtain ⟨b,hb⟩ := hdest i rfl
    have hvb := hvt.arr b (List.mem_of_getElem? hb)
    simp only [pointer,pure_bind,hb]
    exact ((ih.array (n - 1) b hvb (by omega)).pre (at_state ⟨hs,htok⟩)).bind
      ((hspec.array (n - 1) b hvb).pre (at_state ⟨hs,htok⟩)) fun _ => AgreeOn.refl _
  | LBRACE =>
    refine lift_agree fun r hr => ?_
    obtain ⟨t',i⟩ := r
    obtain ⟨hvt,-,b,hb⟩ := createKeytable_ok ht hr
    have hvb := hvt.tab b (List.mem_of_getElem? hb)
    simp only [pointer,pure_bind,hb]
    exact ((ih.table (n - 1) b hvb (by omega)).pre (at_state ⟨hs,htok⟩)).bind
      ((hspec.table (n - 1) b hvb).pre (at_state ⟨hs,htok⟩)) fun _ => AgreeOn.refl _
  | _ => exact AgreeOn.refl _

theorem parser_stable (strtod : Bytes → Bool) (conf : Bytes) (fuel : ℕ) :
    ParserStable strtod conf fuel := by
  induction fuel with
  | zero =>
    exact ⟨fun _ _ _ h => absurd h (by omega),fun _ _ _ h => absurd h (by omega),
      fun _ _ _ h => absurd h (by omega),fun _ _ _ h => absurd h (by omega),
      fun _ _ _ h => absurd h (by omega),fun _ _ _ h => absurd h (by omega)⟩
  | succ fuel ih =>
    exact ⟨fun _ _ ht h => parseTable_agree ih ht h,fun _ _ ht h => parseTableLoop_agree ih ht h,
      fun _ _ ha h => parseArray_agree ih ha h,fun _ _ ha h => parseArrayLoop_agree ih ha h,
      fun _ _ _ h => parseElement_agree ih h,fun _ _ ht h => parseKeyval_agree ih ht h⟩

theorem parseLoop_agree {root : Table} {curtab : Path} (hroot : root.Valid strtod)
    (hcur : ∃ t, root.find curtab = some t) (hfuel : 3 * n + 4 ≤ fuel) :
    AgreeOn (Within conf n) (parseLoop strtod fuel root curtab)
      (parseLoop strtod (fuel + 1) root curtab) := by
  induction fuel generalizing root curtab n with
  | zero => omega
  | succ fuel ih =>
    rw [parseLoop,parseLoop]
    refine agree_get fun s hs => ?_
    split_ifs with heof
    · exact AgreeOn.refl _
    · have hn := hs.pos (Bool.eq_false_iff.mpr heof)
      cases htok : s.tok with
      | NEWLINE =>
        refine agree_bind_left (nextToken_eats (n := n) (at_state ⟨hs,by simp [htok],?_⟩))
          fun _ => ih hroot hcur (by omega)
        exact Bool.eq_false_iff.mpr heof
      | STRING =>
        obtain ⟨t,ht⟩ := hcur
        have hvt := find_valid hroot ht
        simp only [ht,pointer,pure_bind]
        refine (((parser_stable strtod conf fuel).keyval n t hvt (by omega)).pre
          (at_state ⟨hs,htok⟩)).bind (((parser_spec strtod conf fuel).keyval n t hvt).pre
          (at_state ⟨hs,htok⟩)) fun r => ?_
        refine agree_if (AgreeOn.refl _) ?_
        intro u hu
        have hroot' := (update_valid (f := fun _ => r) hroot ht hu.1.2.1 hu.1.2.2).1
        exact agree_bind_left (eatToken_within (at_state ⟨hu.1.1,not_not.mp hu.2⟩))
          (fun _ => ih hroot' ⟨r,update_find ht⟩ (by omega)) u rfl
      | LBRACKET =>
        refine agree_bind_left ((parseSelect_spec hroot).pre (at_state ⟨hs,htok⟩)) fun r => ?_
        exact fun u hu => ih hu.2.1 hu.2.2 (by omega) u hu.1
      | _ => exact AgreeOn.refl _

end agree

-- The fuel bounds how deep calls and loop rounds nest, a round in the one before it: a byte of the
-- text is worth three levels.
def enoughFuel (conf : Bytes) : ℕ := 3 * (cString conf).length + 5

section verdict
variable {strtod : Bytes → Bool} {conf : Bytes} {fuel : ℕ}

theorem parse_start_agree (hfuel : enoughFuel conf ≤ fuel) :
    parseLoop strtod fuel (Table.empty none false) [] (startToken (cString conf)) =
      parseLoop strtod (fuel + 1) (Table.empty none false) [] (startToken (cString conf)) := by
  obtain ⟨fuel,rfl⟩ : ∃ k, fuel = k + 1 := ⟨fuel - 1,by unfold enoughFuel at hfuel; omega⟩
  rw [parseLoop,parseLoop]
  refine agree_get (P := fun s => s = startToken (cString conf)) (fun s hs => ?_) _ rfl
  subst hs
  refine agree_bind_left (nextToken_at (startToken_at _)) fun _ => ?_
  refine parseLoop_agree (Table.valid_empty none false) ⟨_,rfl⟩ ?_
  change 3 * ((cString conf).length - 0) + 4 ≤ fuel
  unfold enoughFuel at hfuel
  omega

theorem tomlParse_settles (hfuel : enoughFuel conf ≤ fuel) :
    tomlParse strtod fuel conf = tomlParse strtod (enoughFuel conf) conf := by
  induction hfuel with
  | refl => rfl
  | step hle ih =>
    rw [← ih,tomlParse,tomlParse,parse_start_agree hle]

theorem tomlParse_returns (h : tomlParse strtod fuel conf ≠ .error .outOfFuel) :
    tomlParse strtod fuel conf = tomlParse strtod (enoughFuel conf) conf := by
  have happrox := approx_le (g := fun n => parseLoop strtod n (Table.empty none false) [])
    (fun n => parseLoop_approx n _ _) (le_max_left fuel (enoughFuel conf))
  rw [← tomlParse_settles (le_max_right fuel (enoughFuel conf))]
  rcases happrox (startToken (cString conf)) with hbot | heq
  · refine absurd ?_ h
    rw [Faults] at hbot
    rw [tomlParse,hbot]
  · rw [tomlParse,tomlParse,heq]

def Hangs (strtod : Bytes → Bool) (conf : Bytes) : Prop :=
  ∀ fuel, tomlParse strtod fuel conf = .error .outOfFuel

theorem hangs_iff : Hangs strtod conf ↔
    tomlParse strtod (enoughFuel conf) conf = .error .outOfFuel := by
  refine ⟨fun h => h _,fun h fuel => ?_⟩
  by_contra hne
  exact hne ((tomlParse_returns hne).trans h)

theorem tomlParse_bounded (strtod : Bytes → Bool) (conf : Bytes) :
    Hangs strtod conf ∨ tomlParse strtod (enoughFuel conf) conf ≠ .error .outOfFuel ∧
      ∀ fuel, enoughFuel conf ≤ fuel →
        tomlParse strtod fuel conf = tomlParse strtod (enoughFuel conf) conf := by
  by_cases h : tomlParse strtod (enoughFuel conf) conf = .error .outOfFuel
  · exact Or.inl (hangs_iff.mpr h)
  · exact Or.inr ⟨h,fun fuel hfuel => tomlParse_settles hfuel⟩

end verdict

end Toml
