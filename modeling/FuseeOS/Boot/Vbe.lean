import FuseeOS.Lib.Keep
import FuseeOS.Boot.Video
import Mathlib.Data.List.TakeWhile

/-!
# Choosing a video mode

`vbe.c`.  Of the modes that pass its tests the loop of `vbe_try_modes` keeps one, and takes a later one that
is at least as wide as that one is wide and high.

* `modesLoop_eq`            the loop keeps a candidate (`Keep.keep`);
* `tryModes_forall_iff`     so the mode that is set satisfies `P` if and only if every mode that is taken does,
                            unless a later candidate is at least as wide as it is wide and high;
* **`vbe_try_modes_right`** when the mode is acceptable and maximal;
* **`vbe_init_bounded`**    when it does not exceed the monitor.
-/

namespace FuseeOS
open Keep

/-! ## the code -/

/-- what is used of the information on a mode -/
structure VbeVideoMode where
  attr : Nat
  pitch : Nat
  xres : Nat
  yres : Nat
  bpp : Nat
  memoryModel : Nat
  physbase : Nat
deriving DecidableEq, Repr

/-- what the BIOS returns -/
structure VbeBios where
  /-- the words at `video_modes_ptr`; the list of modes ends before the first `0xffff` -/
  modes : List Nat
  /-- call `0x4f01`: what it stores in `gVbeVideoMode` for a mode -/
  modeInfo : Nat → VbeVideoMode
  /-- call `0x4f15`: the register `eax`, and what it stores in `gEDID` -/
  edidEax : Nat
  edid : Fin 128 → UInt8

def EDID_DTD : Fin 128 := 54

/-- `none` is a failure -/
def vbeMonitorInfo (bios : VbeBios) : Option (Nat × Nat) :=
  if bios.edidEax &&& 0xffff ≠ 0x4f then none
  else
    some ((((bios.edid (EDID_DTD + 4)).toNat <<< 4) ||| (bios.edid (EDID_DTD + 2)).toNat) &&& 0xfff,
      (((bios.edid (EDID_DTD + 7)).toNat <<< 4) ||| (bios.edid (EDID_DTD + 5)).toNat) &&& 0xfff)

/-- the tests of `vbe_try_modes` on `gVbeVideoMode` -/
def VbeVideoMode.passes (v : VbeVideoMode) (maxWidth maxHeight : Nat) : Bool :=
  if v.attr &&& 0x90 = 0 then false
  else if ¬ (v.memoryModel = 4 ∨ v.memoryModel = 6) then false
  else if v.xres > maxWidth then false
  else if v.yres > maxHeight then false
  else if v.bpp ≠ 32 then false
  else true

/-- the loop, with the values of `mode`, `mode_width` and `mode_height`; what is left in `mode` -/
def modesLoop (bios : VbeBios) (maxWidth maxHeight : Nat) : List Nat → Nat → Nat → Nat → Nat
  | [], mode, _, _ => mode
  | m :: modes, mode, modeWidth, modeHeight =>
    if m = 0xffff then mode
    else
      let v := bios.modeInfo m
      if ¬ v.passes maxWidth maxHeight then modesLoop bios maxWidth maxHeight modes mode modeWidth modeHeight
      else if v.xres ≥ modeWidth ∧ v.xres ≥ modeHeight then
        modesLoop bios maxWidth maxHeight modes m v.xres v.yres
      else modesLoop bios maxWidth maxHeight modes mode modeWidth modeHeight

/-- call `0x4f02` -/
structure VbeCall where
  /-- the mode that is set -/
  mode : Nat
  ebx : Nat
  /-- the arguments of `video_set_graphical_mode` -/
  graphical : GraphicalMode
deriving DecidableEq, Repr

def vbeSetMode (bios : VbeBios) (mode : Nat) : VbeCall :=
  let v := bios.modeInfo mode
  { mode := mode, ebx := mode ||| 0x4000, graphical := ⟨v.physbase, v.xres, v.yres, v.bpp, v.pitch⟩ }

/-- the mode that is set, if any -/
def vbeTryModes (bios : VbeBios) (maxWidth maxHeight : Nat) : Option VbeCall :=
  let mode := modesLoop bios maxWidth maxHeight bios.modes 0xffff 0 0
  if mode ≠ 0xffff then some (vbeSetMode bios mode) else none

def vbeInit (bios : VbeBios) : Option VbeCall :=
  let mon := (vbeMonitorInfo bios).getD (800, 600)
  vbeTryModes bios mon.1 mon.2

/-! ## what a mode should be -/

/-- the modes of the BIOS -/
def VbeBios.listed (bios : VbeBios) : List Nat := bios.modes.takeWhile (· ≠ 0xffff)

/-- a graphics mode with a linear framebuffer of 32 bits a pixel, not larger than the limits -/
structure Acceptable (maxWidth maxHeight : Nat) (v : VbeVideoMode) : Prop where
  attr : v.attr &&& 0x90 = 0x90
  model : v.memoryModel = 4 ∨ v.memoryModel = 6
  bpp : v.bpp = 32
  width : v.xres ≤ maxWidth
  height : v.yres ≤ maxHeight

/-- at least as large in both dimensions, and larger in one -/
def Exceeds (u v : VbeVideoMode) : Prop :=
  v.xres ≤ u.xres ∧ v.yres ≤ u.yres ∧ (v.xres < u.xres ∨ v.yres < u.yres)

/-- the modes of the list that pass the tests -/
def VbeBios.candidates (bios : VbeBios) (maxWidth maxHeight : Nat) : List Nat :=
  bios.listed.filter fun m => (bios.modeInfo m).passes maxWidth maxHeight

/-- mode `m'` is at least as wide as `m` is wide and high -/
def VbeBios.Beats (bios : VbeBios) (m m' : Nat) : Prop :=
  (bios.modeInfo m).xres ≤ (bios.modeInfo m').xres ∧ (bios.modeInfo m).yres ≤ (bios.modeInfo m').xres

instance (bios : VbeBios) : DecidableRel bios.Beats := fun _ _ => inferInstanceAs (Decidable (_ ∧ _))

instance (bios : VbeBios) : IsTrans Nat bios.Beats :=
  ⟨fun _ _ _ h h' => ⟨Nat.le_trans h.1 h'.1, Nat.le_trans h.2 h'.1⟩⟩

/-- Every candidate that beats all those taken before it satisfies `P`, or is beaten by a later one. -/
def VbeBios.EveryTaken (bios : VbeBios) (maxWidth maxHeight : Nat) (P : Nat → Prop) : Prop :=
  ∀ front m back, bios.candidates maxWidth maxHeight = front ++ m :: back → Kept bios.Beats front.reverse m →
    P m ∨ ∃ m' ∈ back, bios.Beats m m'

/-! ## the loop -/

section
variable {bios : VbeBios} {maxWidth maxHeight : Nat}

theorem passes_iff {v : VbeVideoMode} : v.passes maxWidth maxHeight ↔ v.attr &&& 0x90 ≠ 0 ∧
    (v.memoryModel = 4 ∨ v.memoryModel = 6) ∧ v.xres ≤ maxWidth ∧ v.yres ≤ maxHeight ∧ v.bpp = 32 := by
  unfold VbeVideoMode.passes
  split_ifs <;> simp <;> omega

theorem Acceptable.passes {v : VbeVideoMode} (h : Acceptable maxWidth maxHeight v) :
    v.passes maxWidth maxHeight := by
  refine passes_iff.mpr ⟨?_, h.model, h.width, h.height, h.bpp⟩
  rw [h.attr]
  decide

theorem mem_candidates {m : Nat} :
    m ∈ bios.candidates maxWidth maxHeight ↔ m ∈ bios.listed ∧ (bios.modeInfo m).passes maxWidth maxHeight :=
  List.mem_filter

theorem ne_of_listed {m : Nat} (h : m ∈ bios.listed) : m ≠ 0xffff :=
  of_decide_eq_true (List.mem_takeWhile_imp (p := fun m => decide (m ≠ 0xffff)) h)

/-- what the variables of the loop say about the candidate that is kept -/
def Keeps (bios : VbeBios) (best : Option Nat) (mode modeWidth modeHeight : Nat) : Prop :=
  match best with
  | none => mode = 0xffff ∧ modeWidth = 0 ∧ modeHeight = 0
  | some m => mode = m ∧ modeWidth = (bios.modeInfo m).xres ∧ modeHeight = (bios.modeInfo m).yres

/-- **The loop** keeps a candidate. -/
theorem modesLoop_eq (modes : List Nat) {best : Option Nat} {mode modeWidth modeHeight : Nat}
    (h : Keeps bios best mode modeWidth modeHeight) :
    modesLoop bios maxWidth maxHeight modes mode modeWidth modeHeight =
      (keep bios.Beats best ((modes.takeWhile (· ≠ 0xffff)).filter fun m =>
        (bios.modeInfo m).passes maxWidth maxHeight)).getD 0xffff := by
  induction modes generalizing best mode modeWidth modeHeight with
  | nil =>
    cases best with
    | none => exact h.1
    | some m => exact h.1
  | cons m modes ih =>
    rw [modesLoop]
    by_cases hend : m = 0xffff
    · rw [if_pos hend, List.takeWhile_cons_of_neg (by simp [hend])]
      cases best with
      | none => exact h.1
      | some m => exact h.1
    · rw [if_neg hend, List.takeWhile_cons_of_pos (by simp [hend])]
      dsimp only
      by_cases hpass : (bios.modeInfo m).passes maxWidth maxHeight
      · rw [if_neg (not_not.mpr hpass), List.filter_cons, if_pos hpass]
        cases best with
        | none =>
          obtain ⟨-, hw, hh⟩ := h
          rw [hw, hh, if_pos ⟨Nat.zero_le _, Nat.zero_le _⟩, keep]
          exact ih ⟨rfl, rfl, rfl⟩
        | some b =>
          have hbeats : ((bios.modeInfo m).xres ≥ modeWidth ∧ (bios.modeInfo m).xres ≥ modeHeight) ↔
              bios.Beats b m := by
            rw [h.2.1, h.2.2]
            rfl
          rw [keep]
          by_cases hb : bios.Beats b m
          · rw [if_pos (hbeats.mpr hb), if_pos hb]
            exact ih ⟨rfl, rfl, rfl⟩
          · rw [if_neg (mt hbeats.mp hb), if_neg hb]
            exact ih h
      · rw [if_pos hpass, List.filter_cons, if_neg hpass]
        exact ih h

/-- **`vbe_try_modes`** sets the candidate that is kept at the end. -/
theorem vbeTryModes_eq : vbeTryModes bios maxWidth maxHeight =
    (keep bios.Beats none (bios.candidates maxWidth maxHeight)).map (vbeSetMode bios) := by
  have hnone : Keeps bios none 0xffff 0 0 := ⟨rfl, rfl, rfl⟩
  unfold vbeTryModes
  rw [modesLoop_eq bios.modes hnone, ← VbeBios.listed, ← VbeBios.candidates]
  dsimp only
  cases hkeep : keep bios.Beats none (bios.candidates maxWidth maxHeight) with
  | none => rfl
  | some m =>
    have hne := ne_of_listed (mem_candidates.mp (mem_of_keep hkeep)).1
    exact if_pos hne

/-- a property of the mode that is set -/
theorem tryModes_forall_iff {P : Nat → Prop} :
    (∀ call, vbeTryModes bios maxWidth maxHeight = some call → P call.mode) ↔
      bios.EveryTaken maxWidth maxHeight P := by
  unfold VbeBios.EveryTaken
  rw [vbeTryModes_eq, ← keep_forall_iff]
  constructor
  · intro h m hm
    refine h (vbeSetMode bios m) ?_
    rw [hm, Option.map_some]
  · intro h call hcall
    obtain ⟨m, hm, rfl⟩ := Option.map_eq_some_iff.mp hcall
    exact h m hm

/-! ## the mode that is set -/

/-- what the choice of a mode should be -/
structure TryModesRight (bios : VbeBios) (maxWidth maxHeight : Nat) (result : Option VbeCall) : Prop where
  set : result.isSome ↔ ∃ m ∈ bios.listed, Acceptable maxWidth maxHeight (bios.modeInfo m)
  listed : ∀ call, result = some call → call.mode ∈ bios.listed
  acceptable : ∀ call, result = some call → Acceptable maxWidth maxHeight (bios.modeInfo call.mode)
  maximal : ∀ call, result = some call → ∀ m ∈ bios.listed,
    Acceptable maxWidth maxHeight (bios.modeInfo m) → ¬ Exceeds (bios.modeInfo m) (bios.modeInfo call.mode)
  passed : ∀ call, result = some call → call = vbeSetMode bios call.mode

/-- the mode has both attributes, and no acceptable mode exceeds it -/
def VbeBios.GoodMode (bios : VbeBios) (maxWidth maxHeight m : Nat) : Prop :=
  (bios.modeInfo m).attr &&& 0x90 = 0x90 ∧
    ∀ m' ∈ bios.listed, Acceptable maxWidth maxHeight (bios.modeInfo m') →
      ¬ Exceeds (bios.modeInfo m') (bios.modeInfo m)

/-- **`vbe_try_modes` chooses right** if and only if every mode that is taken and has only one of the two
attributes, or is exceeded by an acceptable one, is followed by a candidate that is at least as wide as it is
wide and high. -/
theorem vbe_try_modes_right (bios : VbeBios) (maxWidth maxHeight : Nat) :
    TryModesRight bios maxWidth maxHeight (vbeTryModes bios maxWidth maxHeight) ↔
      bios.EveryTaken maxWidth maxHeight (bios.GoodMode maxWidth maxHeight) := by
  rw [← tryModes_forall_iff]
  have hcandidate : ∀ call, vbeTryModes bios maxWidth maxHeight = some call →
      call.mode ∈ bios.candidates maxWidth maxHeight ∧ call = vbeSetMode bios call.mode := by
    intro call hcall
    rw [vbeTryModes_eq] at hcall
    obtain ⟨m, hm, rfl⟩ := Option.map_eq_some_iff.mp hcall
    exact ⟨mem_of_keep hm, rfl⟩
  constructor
  · intro h call hcall
    exact ⟨(h.acceptable call hcall).attr, h.maximal call hcall⟩
  · intro h
    have hacceptable : ∀ call, vbeTryModes bios maxWidth maxHeight = some call →
        Acceptable maxWidth maxHeight (bios.modeInfo call.mode) := by
      intro call hcall
      obtain ⟨-, hmodel, hwidth, hheight, hbpp⟩ := passes_iff.mp (mem_candidates.mp (hcandidate call hcall).1).2
      exact ⟨(h call hcall).1, hmodel, hbpp, hwidth, hheight⟩
    refine ⟨⟨fun hsome => ?_, ?_⟩,
      fun call hcall => (mem_candidates.mp (hcandidate call hcall).1).1, hacceptable,
      fun call hcall => (h call hcall).2, fun call hcall => (hcandidate call hcall).2⟩
    · obtain ⟨call, hcall⟩ := Option.isSome_iff_exists.mp hsome
      exact ⟨call.mode, (mem_candidates.mp (hcandidate call hcall).1).1, hacceptable call hcall⟩
    · rintro ⟨m, hm, hacc⟩
      rw [vbeTryModes_eq, Option.isSome_map, Option.isSome_iff_ne_none, ne_eq, keep_eq_none_iff]
      exact List.ne_nil_of_mem (mem_candidates.mpr ⟨hm, hacc.passes⟩)

end

/-- a mode with a linear framebuffer and 32 bits a pixel -/
def trueColour (xres yres : Nat) : VbeVideoMode := ⟨0x90, 4 * xres, xres, yres, 32, 6, 0xe0000000⟩

/-- a BIOS with two modes, and the low bytes of a detailed timing -/
def twoModes (v₁ v₂ : VbeVideoMode) (edid : Fin 128 → UInt8) : VbeBios where
  modes := [0x118, 0x119, 0xffff]
  modeInfo := fun m => if m = 0x118 then v₁ else v₂
  edidEax := 0x4f
  edid := edid

/-- Behind 1024 by 768 comes 1024 by 600, which is taken for its width. -/
theorem vbe_try_modes_wrong : ¬ ∀ bios maxWidth maxHeight,
    TryModesRight bios maxWidth maxHeight (vbeTryModes bios maxWidth maxHeight) := by
  intro h
  have hright := h (twoModes (trueColour 1024 768) (trueColour 1024 600) fun _ => 0) 1280 1024
  have hset : vbeTryModes (twoModes (trueColour 1024 768) (trueColour 1024 600) fun _ => 0) 1280 1024 =
      some (vbeSetMode (twoModes (trueColour 1024 768) (trueColour 1024 600) fun _ => 0) 0x119) := by
    decide
  refine hright.maximal _ hset 0x118 (by decide) ?_ ?_
  · exact ⟨by decide, by decide, by decide, by decide, by decide⟩
  · exact ⟨by decide, by decide, by decide⟩

/-! ## the monitor -/

/-- an active pixel count of the first detailed timing: 8 low bits, and 4 high ones in the upper half of the
byte `high` -/
def activePixels (low high : UInt8) : Nat := low.toNat + 256 * (high.toNat / 16)

/-- the limits that the monitor gives, or those without one -/
def VbeBios.limits (bios : VbeBios) : Nat × Nat :=
  if bios.edidEax &&& 0xffff = 0x4f then
    (activePixels (bios.edid (EDID_DTD + 2)) (bios.edid (EDID_DTD + 4)),
      activePixels (bios.edid (EDID_DTD + 5)) (bios.edid (EDID_DTD + 7)))
  else (800, 600)

/-- the mode is not larger than the limits -/
def VbeBios.Within (bios : VbeBios) (m : Nat) : Prop :=
  (bios.modeInfo m).xres ≤ bios.limits.1 ∧ (bios.modeInfo m).yres ≤ bios.limits.2

/-- what the code decodes: the blanking bits in the lower half of the byte `high` are merged in -/
theorem decoded_eq (low high : UInt8) : ((high.toNat <<< 4) ||| low.toNat) &&& 0xfff =
    256 * (high.toNat / 16) + (16 * (high.toNat % 16) ||| low.toNat) := by
  have hlow := low.toNat_lt
  have hhigh := high.toNat_lt
  have hmask : ∀ n : Nat, n &&& 0xfff = n % 2^12 := fun n => Nat.and_two_pow_sub_one_eq_mod n 12
  have hsplit : high.toNat <<< 4 = 2^8 * (high.toNat / 16) ||| 16 * (high.toNat % 16) := by
    rw [← Nat.two_pow_add_eq_or_of_lt (by omega), Nat.shiftLeft_eq]
    omega
  have hor : 16 * (high.toNat % 16) ||| low.toNat < 2^8 := Nat.or_lt_two_pow (by omega) (by omega)
  rw [hmask, hsplit, Nat.or_assoc, ← Nat.two_pow_add_eq_or_of_lt hor, Nat.mod_eq_of_lt (by omega)]

/-- the decoded count is at least the true one, and it is that one if the blanking bits are among the others -/
theorem decoded_right {low high : UInt8} (h : 16 * (high.toNat % 16) ||| low.toNat = low.toNat) :
    ((high.toNat <<< 4) ||| low.toNat) &&& 0xfff = activePixels low high := by
  rw [decoded_eq, h, activePixels, Nat.add_comm]

/-- the mode that is set passed the tests -/
theorem vbeTryModes_size {bios : VbeBios} {maxWidth maxHeight : Nat} {call : VbeCall}
    (h : vbeTryModes bios maxWidth maxHeight = some call) :
    (bios.modeInfo call.mode).xres ≤ maxWidth ∧ (bios.modeInfo call.mode).yres ≤ maxHeight := by
  rw [vbeTryModes_eq] at h
  obtain ⟨m, hm, rfl⟩ := Option.map_eq_some_iff.mp h
  obtain ⟨-, -, hwidth, hheight, -⟩ := passes_iff.mp (mem_candidates.mp (mem_of_keep hm)).2
  exact ⟨hwidth, hheight⟩

section
variable {bios : VbeBios}

/-- without a monitor the limits are those of the code -/
theorem vbeInit_within_of_failure (h : vbeMonitorInfo bios = none) :
    ∀ call, vbeInit bios = some call → bios.Within call.mode := by
  have heax : ¬ bios.edidEax &&& 0xffff = 0x4f := by
    intro heax
    unfold vbeMonitorInfo at h
    rw [if_neg (not_not.mpr heax)] at h
    exact nomatch h
  intro call hcall
  unfold vbeInit at hcall
  rw [h] at hcall
  unfold VbeBios.Within VbeBios.limits
  rw [if_neg heax]
  exact vbeTryModes_size hcall

/-- the blanking bits that share bytes with the high bits of the active pixel counts are bits of these too -/
def VbeBios.BlankingInside (bios : VbeBios) : Prop :=
  16 * ((bios.edid (EDID_DTD + 4)).toNat % 16) ||| (bios.edid (EDID_DTD + 2)).toNat =
      (bios.edid (EDID_DTD + 2)).toNat ∧
    16 * ((bios.edid (EDID_DTD + 7)).toNat % 16) ||| (bios.edid (EDID_DTD + 5)).toNat =
      (bios.edid (EDID_DTD + 5)).toNat

/-- with such blanking bits the limits are decoded right -/
theorem vbeInit_within_of_blanking (h : bios.BlankingInside) :
    ∀ call, vbeInit bios = some call → bios.Within call.mode := by
  intro call hcall
  by_cases heax : bios.edidEax &&& 0xffff = 0x4f
  · have hinfo : vbeMonitorInfo bios = some bios.limits := by
      unfold vbeMonitorInfo VbeBios.limits
      rw [if_neg (not_not.mpr heax), if_pos heax, decoded_right h.1, decoded_right h.2]
    unfold vbeInit at hcall
    rw [hinfo] at hcall
    exact vbeTryModes_size hcall
  · exact vbeInit_within_of_failure (if_pos heax) call hcall

end

/-- **The mode that `vbe_init` sets is not larger than the monitor** if and only if there is no monitor, or
every mode that is taken and is larger is followed by a candidate that is at least as wide as it is wide and
high.  There is no such mode if the blanking bits are bits of the active pixel counts too. -/
theorem vbe_init_bounded (bios : VbeBios) :
    ((∀ call, vbeInit bios = some call → bios.Within call.mode) ↔
      ∀ limits, vbeMonitorInfo bios = some limits → bios.EveryTaken limits.1 limits.2 bios.Within) ∧
    (bios.BlankingInside → ∀ call, vbeInit bios = some call → bios.Within call.mode) := by
  refine ⟨?_, vbeInit_within_of_blanking⟩
  cases hinfo : vbeMonitorInfo bios with
  | none => exact iff_of_true (vbeInit_within_of_failure hinfo) (fun limits h => nomatch h)
  | some mon =>
    unfold vbeInit
    rw [hinfo]
    constructor
    · intro h limits hlimits
      rw [← Option.some.inj hlimits, ← tryModes_forall_iff]
      exact h
    · intro h
      exact tryModes_forall_iff.mpr (h mon rfl)

/-- a monitor of 1280 by 1024 pixels, with 256 pixels of horizontal blanking -/
def blankingEdid (i : Fin 128) : UInt8 := if i = 58 then 0x51 else if i = 61 then 0x40 else 0

/-- The width is decoded as 1296. -/
theorem vbe_init_wrong : ¬ ∀ bios call, vbeInit bios = some call → bios.Within call.mode := by
  intro h
  have hset : vbeInit (twoModes (trueColour 1296 1024) (trueColour 640 480) blankingEdid) =
      some (vbeSetMode (twoModes (trueColour 1296 1024) (trueColour 640 480) blankingEdid) 0x118) := by
    decide
  have hwithin := (h _ _ hset).1
  exact absurd hwithin (by decide)

end FuseeOS
