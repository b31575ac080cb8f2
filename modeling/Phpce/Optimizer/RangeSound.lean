import Phpce.Optimizer.RangeCorners

/-!
# The ranges are sound

* **`range_sound_iff`**: for which operand ranges everything that an opcode evaluates to lies in
  the range that is computed for it.
-/

namespace Phpce

namespace Optimizer

namespace Range

open Option hiding or_assoc

variable {r r1 r2 : ZendSsaRange} {x y : Int64}

/-! ## Binary operations -/

/-- When the ranges of two operands that are not empty are dealt with rightly. -/
def BinaryFits (opcode : RangeOp) (r1 r2 : ZendSsaRange) : Prop :=
  match opcode with
  | .sub => SubFits r1 r2
  | .mod => r1.hasFlag = true ∨ r2.hasFlag = true ∨ ModFits r1 r2
  | .sl => r1.hasFlag = true ∨ r2.hasFlag = true ∨ SlFits r1 r2
  | .sr => r1.hasFlag = true ∨ r2.hasFlag = true ∨ SrFits r1 r2
  | .boolXor => XorFits r1 r2
  | _ => True

def Fits (opcode : RangeOp) (target : Target) (op1 op2 : Operand) : Prop :=
  ∀ r1 r2, target = .result → op1.range = some r1 → op2.range = some r2 →
    r1.min ≤ r1.max → r2.min ≤ r2.max → BinaryFits opcode r1 r2

def BinarySound (opcode : RangeOp) (r1 r2 : ZendSsaRange) : Prop :=
  ∀ r, zendInferenceCalcBinaryOpRange opcode r1 r2 = some r →
    ∀ x y, r1.Contains x → r2.Contains y → ∀ v, evaluate opcode .result x y = some v → v.Within r

theorem contains_anyLong (x : Int64) : anyLong.Contains x :=
  ⟨Int64.minValue_le x, Int64.le_maxValue x⟩

theorem longSound_iff {opcode : RangeOp} {f : Int64 → Int64 → Option Int64}
    {computed : Option ZendSsaRange}
    (hcalc : zendInferenceCalcBinaryOpRange opcode r1 r2 =
      if r1.hasFlag || r2.hasFlag then some anyLong else computed)
    (heval : ∀ x y, evaluate opcode .result x y = (f x y).map .long) :
    BinarySound opcode r1 r2 ↔ r1.hasFlag = true ∨ r2.hasFlag = true ∨
      ∀ r, computed = some r → ∀ x y v, r1.Contains x → r2.Contains y → f x y = some v →
        r.Contains v := by
  rw [BinarySound, hcalc, ← or_assoc, ← Bool.or_eq_true]
  cases r1.hasFlag || r2.hasFlag with
  | true =>
    refine iff_of_true (fun r hr x y _ _ v hv => ?_) (.inl rfl)
    obtain rfl := some.inj hr
    obtain ⟨z, -, rfl⟩ := map_eq_some_iff.mp ((heval x y).symm.trans hv)
    exact contains_anyLong z
  | false =>
    rw [or_iff_right Bool.false_ne_true]
    constructor
    · intro h r hr x y v hx hy hv
      exact h r hr x y hx hy (.long v) ((heval x y).trans (congrArg (Option.map Outcome.long) hv))
    · intro h r hr x y hx hy v hv
      obtain ⟨z, hz, rfl⟩ := map_eq_some_iff.mp ((heval x y).symm.trans hv)
      exact h r hr x y z hx hy hz

theorem modSound_iff (h1 : r1.min ≤ r1.max) : BinarySound .mod r1 r2 ↔ BinaryFits .mod r1 r2 := by
  rw [longSound_iff (f := modFunction) rfl fun _ _ => rfl]
  refine or_congr_right (or_congr_right ((modFits_iff h1).trans ?_).symm)
  by_cases hzero : r2.min = 0 ∨ r2.max = 0
  · refine iff_of_true (or_assoc.mp (.inl hzero)) fun r hr => ?_
    exact absurd ((if_pos hzero).symm.trans hr) (some_ne_none r).symm
  · have hsome : (if r2.min = 0 ∨ r2.max = 0 then none
        else some (corners remainder r1 r2)) = some (corners remainder r1 r2) := if_neg hzero
    rw [← or_assoc, or_iff_right hzero]
    constructor
    · intro h r hr x y v hx hy hv
      obtain rfl := some.inj (hsome.symm.trans hr)
      rw [modFunction_eq] at hv
      split at hv
      next => exact absurd hv (some_ne_none v).symm
      next hy0 =>
        obtain rfl := some.inj hv
        exact h x y hx hy hy0
    · intro h x y hx hy hy0
      refine h _ hsome x y _ hx hy ?_
      rw [modFunction_eq, if_neg hy0]

theorem slSound_iff (h1 : r1.min ≤ r1.max) : BinarySound .sl r1 r2 ↔ BinaryFits .sl r1 r2 := by
  rw [longSound_iff (f := shiftLeftFunction) rfl fun _ _ => rfl]
  refine or_congr_right (or_congr_right ((slFits_iff h1).trans ?_).symm)
  exact ⟨fun h r hr => some.inj hr ▸ h, fun h => h _ rfl⟩

theorem srSound_iff (h1 : r1.min ≤ r1.max) (h2 : r2.min ≤ r2.max) :
    BinarySound .sr r1 r2 ↔ BinaryFits .sr r1 r2 := by
  rw [longSound_iff (f := shiftRightFunction) rfl fun _ _ => rfl]
  refine or_congr_right (or_congr_right ((srFits_iff h1 h2).trans ?_).symm)
  exact ⟨fun h r hr => some.inj hr ▸ h, fun h => h _ rfl⟩

theorem addSound : BinarySound .add r1 r2 := by
  intro r hr x y hx hy v hv
  obtain rfl := some.inj hr
  obtain rfl := some.inj hv
  exact addRange_sound hx hy

theorem subSound_iff (h1 : r1.min ≤ r1.max) (h2 : r2.min ≤ r2.max) :
    BinarySound .sub r1 r2 ↔ BinaryFits .sub r1 r2 := by
  constructor
  · intro h
    by_contra hfits
    exact subRange_unsound hfits (h _ rfl r1.max r2.min ⟨h1, Int64.le_refl _⟩
      ⟨Int64.le_refl _, h2⟩ _ rfl)
  · intro hfits r hr x y hx hy v hv
    obtain rfl := some.inj hr
    obtain rfl := some.inj hv
    exact subRange_sound hfits hx hy

/-- The opcodes that go through `zend_inference_calc_binary_op_range`. -/
def RangeOp.isBinary : RangeOp → Bool
  | .add | .sub | .mod | .sl | .sr => true
  | _ => false

theorem binarySound_iff_fits {opcode : RangeOp} (hbinary : opcode.isBinary = true)
    (h1 : r1.min ≤ r1.max) (h2 : r2.min ≤ r2.max) :
    BinarySound opcode r1 r2 ↔ BinaryFits opcode r1 r2 := by
  cases opcode with
  | add => exact iff_of_true addSound trivial
  | sub => exact subSound_iff h1 h2
  | mod => exact modSound_iff h1
  | sl => exact slSound_iff h1
  | sr => exact srSound_iff h1 h2
  | _ => exact absurd hbinary Bool.false_ne_true

/-! ## All opcodes -/

section

variable {opcode : RangeOp} {target : Target} {op1 op2 : Operand}

theorem sound_map {f : ZendSsaRange → ZendSsaRange} {g : Int64 → Outcome}
    (hcalc : zendInferenceCalcRange opcode target op1 op2 = op1.range.map f)
    (heval : ∀ x y, evaluate opcode target x y = some (g x))
    (h : ∀ {r : ZendSsaRange} {x}, r.Contains x → (g x).Within (f r)) :
    Sound opcode target op1 op2 := by
  intro r hr x y hx _ v hv
  obtain ⟨r', hr', rfl⟩ := map_eq_some_iff.mp (hcalc.symm.trans hr)
  obtain rfl := some.inj ((heval x y).symm.trans hv)
  exact h (hx r' hr')

theorem sound_getD {f : ZendSsaRange → ZendSsaRange} {d : ZendSsaRange} {g : Int64 → Outcome}
    (hcalc : zendInferenceCalcRange opcode target op1 op2 = some ((op1.range.map f).getD d))
    (heval : ∀ x y, evaluate opcode target x y = some (g x))
    (h : ∀ {r : ZendSsaRange} {x}, r.Contains x → (g x).Within (f r))
    (hd : ∀ x, (g x).Within d) : Sound opcode target op1 op2 := by
  intro r hr x y hx _ v hv
  obtain rfl := some.inj (hcalc.symm.trans hr)
  obtain rfl := some.inj ((heval x y).symm.trans hv)
  cases hrange : op1.range with
  | none => exact hd x
  | some r' => exact h (hx r' hrange)

theorem sound_cond {f : ZendSsaRange → ZendSsaRange → ZendSsaRange} {b : Int64 → Int64 → Bool}
    (hcalc : zendInferenceCalcRange opcode target op1 op2 = some (condRange f op1 op2))
    (heval : ∀ x y, evaluate opcode target x y = some (.bool (b x y)))
    (h : ∀ r1 r2 x y, op1.range = some r1 → op2.range = some r2 → r1.Contains x →
      r2.Contains y → (Outcome.bool (b x y)).Within (f r1 r2)) :
    Sound opcode target op1 op2 := by
  intro r hr x y hx hy v hv
  obtain rfl := some.inj (hcalc.symm.trans hr)
  obtain rfl := some.inj ((heval x y).symm.trans hv)
  rw [condRange]
  split
  next r1 r2 hr1 hr2 => exact h r1 r2 x y hr1 hr2 (hx r1 hr1) (hy r2 hr2)
  next => exact within_anyBool _

theorem calcRange_binary (op1 op2 : Operand) (hbinary : opcode.isBinary = true) :
    zendInferenceCalcRange opcode .result op1 op2 =
      match op1.range, op2.range with
      | some r1, some r2 => zendInferenceCalcBinaryOpRange opcode r1 r2
      | _, _ => none := by
  cases opcode with
  | add => rfl
  | sub => rfl
  | mod => rfl
  | sl => rfl
  | sr => rfl
  | _ => exact absurd hbinary Bool.false_ne_true

theorem sound_iff_of_isBinary (hbinary : opcode.isBinary = true) :
    Sound opcode .result op1 op2 ↔ Fits opcode .result op1 op2 := by
  have hcalc := calcRange_binary op1 op2 hbinary
  constructor
  · intro h r1 r2 _ hr1 hr2 h1 h2
    refine (binarySound_iff_fits hbinary h1 h2).mp fun r hr x y hx hy v hv => ?_
    rw [hr1, hr2] at hcalc
    refine h r (hcalc.trans hr) x y (fun r' hr' => ?_) (fun r' hr' => ?_) v hv
    · exact some.inj (hr1.symm.trans hr') ▸ hx
    · exact some.inj (hr2.symm.trans hr') ▸ hy
  · intro h r hr x y hx hy v hv
    rw [hcalc] at hr
    split at hr
    next r1 r2 hr1 hr2 =>
      have hx' := hx r1 hr1
      have hy' := hy r2 hr2
      have h1 := contains_iff.mp hx'
      have h2 := contains_iff.mp hy'
      have h1' : r1.min ≤ r1.max := Int64.le_iff_toInt_le.mpr (h1.1.trans h1.2)
      have h2' : r2.min ≤ r2.max := Int64.le_iff_toInt_le.mpr (h2.1.trans h2.2)
      have hfits := h r1 r2 rfl hr1 hr2 h1' h2'
      exact (binarySound_iff_fits hbinary h1' h2').mpr hfits r hr x y hx' hy' v hv
    next => exact absurd hr (some_ne_none r).symm

theorem boolXor_sound_iff : Sound .boolXor .result op1 op2 ↔ Fits .boolXor .result op1 op2 := by
  constructor
  · intro h r1 r2 _ hr1 hr2 h1 h2
    show XorFits r1 r2
    by_contra hfits
    obtain ⟨x, y, hx, hy, hout⟩ := boolXorRange_unsound h1 h2 hfits
    have hcalc : zendInferenceCalcRange .boolXor .result op1 op2 = some (boolXorRange r1 r2) := by
      show some (condRange boolXorRange op1 op2) = _
      rw [condRange, hr1, hr2]
    refine hout (h _ hcalc x y (fun r' hr' => ?_) (fun r' hr' => ?_) _ rfl)
    · exact some.inj (hr1.symm.trans hr') ▸ hx
    · exact some.inj (hr2.symm.trans hr') ▸ hy
  · intro h
    refine sound_cond (f := boolXorRange) rfl (fun _ _ => rfl) fun r1 r2 x y hr1 hr2 hx hy => ?_
    have h1 := contains_iff.mp hx
    have h2 := contains_iff.mp hy
    have hfits := h r1 r2 rfl hr1 hr2 (Int64.le_iff_toInt_le.mpr (h1.1.trans h1.2))
      (Int64.le_iff_toInt_le.mpr (h2.1.trans h2.2))
    exact boolXorRange_sound hfits hx hy

theorem sound_result (hbinary : opcode.isBinary = false) (hxor : opcode ≠ .boolXor) :
    Sound opcode .result op1 op2 := by
  have hmap : op1.range = op1.range.map id := (congrFun Option.map_id op1.range).symm
  have hbool : ∀ {r : ZendSsaRange} {x}, r.Contains x →
      (Outcome.bool (x ≠ 0)).Within (boolRange r) := boolRange_sound
  cases opcode with
  | bwNot => exact sound_map rfl (fun _ _ => rfl) bwNotRange_sound
  | cast type =>
    cases type with
    | null =>
      intro r hr x y _ _ v hv
      obtain rfl := some.inj hr
      obtain rfl := some.inj hv
      exact ⟨Int64.le_refl 0, Int64.le_refl 0⟩
    | bool => exact sound_getD rfl (fun _ _ => rfl) hbool fun _ => within_anyBool _
    | long =>
      exact sound_getD (f := fun r => between r.min r.max) (g := .long) rfl (fun _ _ => rfl) id
        contains_anyLong
  | bool => exact sound_getD rfl (fun _ _ => rfl) hbool fun _ => within_anyBool _
  | jmpzEx => exact sound_getD rfl (fun _ _ => rfl) hbool fun _ => within_anyBool _
  | jmpnzEx => exact sound_getD rfl (fun _ _ => rfl) hbool fun _ => within_anyBool _
  | boolNot =>
    exact sound_getD rfl (fun _ _ => rfl) boolNotRange_sound fun _ => within_anyBool _
  | isIdentical =>
    exact sound_cond rfl (fun _ _ => rfl) fun _ _ _ _ _ _ => isEqualRange_sound
  | isEqual => exact sound_cond rfl (fun _ _ => rfl) fun _ _ _ _ _ _ => isEqualRange_sound
  | isNotIdentical =>
    exact sound_cond rfl (fun _ _ => rfl) fun _ _ _ _ _ _ => isNotEqualRange_sound
  | isNotEqual => exact sound_cond rfl (fun _ _ => rfl) fun _ _ _ _ _ _ => isNotEqualRange_sound
  | isSmaller => exact sound_cond rfl (fun _ _ => rfl) fun _ _ _ _ _ _ => isSmallerRange_sound
  | isSmallerOrEqual =>
    exact sound_cond rfl (fun _ _ => rfl) fun _ _ _ _ _ _ => isSmallerOrEqualRange_sound
  | preInc => exact sound_map rfl (fun _ _ => rfl) incRange_sound
  | preDec => exact sound_map rfl (fun _ _ => rfl) decRange_sound
  | postInc => exact sound_map (f := id) (g := .long) hmap (fun _ _ => rfl) id
  | postDec => exact sound_map (f := id) (g := .long) hmap (fun _ _ => rfl) id
  | boolXor => exact absurd rfl hxor
  | _ => exact absurd hbinary.symm Bool.false_ne_true

theorem sound_op1 (opcode : RangeOp) (op1 op2 : Operand) : Sound opcode .op1 op1 op2 := by
  cases opcode with
  | cast type =>
    have hmap : op1.range = op1.range.map id := (congrFun Option.map_id op1.range).symm
    cases type with
    | null => exact sound_map (f := id) (g := .long) hmap (fun _ _ => rfl) id
    | bool => exact sound_map (f := id) (g := .long) hmap (fun _ _ => rfl) id
    | long => exact sound_map (f := id) (g := .long) hmap (fun _ _ => rfl) id
  | preInc => exact sound_map rfl (fun _ _ => rfl) incRange_sound
  | preDec => exact sound_map rfl (fun _ _ => rfl) decRange_sound
  | postInc => exact sound_map rfl (fun _ _ => rfl) incRange_sound
  | postDec => exact sound_map rfl (fun _ _ => rfl) decRange_sound
  | _ => exact fun r hr => absurd hr (some_ne_none r).symm

end

/-- **When the ranges are sound.** Whatever integers the operands are, the outcome lies in the range
that is computed or is announced by a flag, if and only if the opcode's condition holds of the
operands' ranges. -/
theorem range_sound_iff (opcode : RangeOp) (target : Target) (op1 op2 : Operand) :
    Sound opcode target op1 op2 ↔ Fits opcode target op1 op2 := by
  cases target with
  | op1 =>
    refine iff_of_true (sound_op1 opcode op1 op2) fun r1 r2 h => ?_
    exact nomatch h
  | result =>
    cases opcode with
    | add => exact sound_iff_of_isBinary rfl
    | sub => exact sound_iff_of_isBinary rfl
    | mod => exact sound_iff_of_isBinary rfl
    | sl => exact sound_iff_of_isBinary rfl
    | sr => exact sound_iff_of_isBinary rfl
    | boolXor => exact boolXor_sound_iff
    | _ => exact iff_of_true (sound_result rfl nofun) fun _ _ _ _ _ _ _ => trivial

/-! ## A misread range -/

/-- `$x xor 0`, where `$x` is at most 0. -/
theorem not_sound_boolXor :
    ¬Sound .boolXor .result (.var (some (between (-5) 0))) (.const (.long 0)) := by
  intro h
  have hwithin := h (between 0 0) (by decide) (-5) 0
    (fun r hr => some.inj hr ▸ by decide) (fun r hr => some.inj hr ▸ by decide)
    (.bool true) (by decide)
  exact absurd hwithin (by decide)

end Range

end Optimizer

end Phpce
