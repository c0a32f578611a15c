import FuseeOS.Lib.Run
import FuseeOS.Lib.Pyramid
import FuseeOS.Kernel.AllocPage

/-!
# The buddy hierarchy

`bitmap[j + 1]` should sum up `bitmap[j]`: bit `k` set exactly if bit `2 * k` or `2 * k + 1` below
it is (`Hierarchy`, a pyramid of 8 levels).  `mark_page_used` keeps this.  `mark_page_free` tests
the buddy with the mask `3 << (off & ~1)` on one byte, where `off` is not reduced modulo 8:

* `buddyTest_iff`           the test passes whenever `8 ≤ off % 32`, whatever the buddy is;
* `hierarchy_freeOrders`    a release keeps the hierarchy exactly if, at every order it climbs
                            through, that does not happen with the buddy in use (`ReleaseOk`);
* `buddy_hierarchy`         the same for every run of the two functions.
-/

namespace FuseeOS
open BitMap Pyramid StepRun

/-- all bits of all orders -/
def bits (bitmap : Nat → Nat → BitVec 8) : Nat → Nat → Bool := fun j k => get (bitmap j) k

/-- a bit of order `j + 1` is set exactly if one of the two bits below it is -/
def Hierarchy (bitmap : Nat → Nat → BitVec 8) : Prop :=
  ∀ j, j + 1 < PMB_MAX_ORDER → ∀ k,
    get (bitmap (j + 1)) k = (get (bitmap j) (2 * k) || get (bitmap j) (2 * k + 1))

theorem hierarchy_iff (bitmap : Nat → Nat → BitVec 8) :
    Hierarchy bitmap ↔ Ok PMB_MAX_ORDER (bits bitmap) := Iff.rfl

/-- an order-`j` bit is set exactly when some page of its `2^j`-page group is in use -/
theorem Hierarchy.group {bitmap : Nat → Nat → BitVec 8} (h : Hierarchy bitmap) (j : Nat)
    (hj : j < PMB_MAX_ORDER) (k : Nat) :
    get (bitmap j) k = true ↔ ∃ i, i < 2^j ∧ get (bitmap 0) (2^j * k + i) = true :=
  Ok.group (t := bits bitmap) h j hj k

theorem bits_clear (bitmap : Nat → Nat → BitVec 8) (j o : Nat) :
    bits (Function.update bitmap j (clear (bitmap j) o)) = upd (bits bitmap) j o false := by
  funext i k
  unfold bits upd
  by_cases hi : i = j
  · subst hi
    rw [Function.update_self, get_clear]
    by_cases hk : k = o <;> simp [hk]
  · rw [Function.update_of_ne hi]
    simp [hi]

theorem bits_set (bitmap : Nat → Nat → BitVec 8) (j o : Nat) :
    bits (Function.update bitmap j (set (bitmap j) o)) = upd (bits bitmap) j o true := by
  funext i k
  unfold bits upd
  by_cases hi : i = j
  · subst hi
    rw [Function.update_self, get_set]
    by_cases hk : k = o <;> simp [hk]
  · rw [Function.update_of_ne hi]
    simp [hi]

/-! ## the buddy test -/

theorem getLsbD_three_shift (s i : Nat) (hi : i < 32) :
    (3#32 <<< s).getLsbD i = decide (i = s ∨ i = s + 1) := by
  have h3 : ∀ n, (3#32).getLsbD n = decide (n < 2) := by
    intro n
    rcases n with _ | _ | n
    · rfl
    · rfl
    · rw [BitVec.getLsbD_ofNat, Nat.testBit_add_one, Nat.testBit_add_one]
      simp
  rw [BitVec.getLsbD_shiftLeft, h3]
  by_cases h : i < s
  · have h1 : ¬ (i = s ∨ i = s + 1) := by omega
    simp [h, h1]
  · have e : i - s < 2 ↔ (i = s ∨ i = s + 1) := by omega
    simp [h, hi, e]

/-- the mask misses the byte when `off % 32` is 8 or more; the test then passes blindly -/
theorem buddyTest_iff (m : Nat → BitVec 8) (off : Nat) :
    buddyTest m off = true ↔
      8 ≤ off % 32 ∨ (get m (2 * (off / 2)) = false ∧ get m (2 * (off / 2) + 1) = false) := by
  have hs : ∀ i, i < 32 →
      ((m (off / 8)).setWidth 32 &&& (3#32 <<< (off / 2 * 2 % 32))).getLsbD i
        = (decide (i < 8) && (m (off / 8)).getLsbD i &&
            decide (i = off / 2 * 2 % 32 ∨ i = off / 2 * 2 % 32 + 1)) := by
    intro i hi
    rw [BitVec.getLsbD_and, BitVec.getLsbD_setWidth, getLsbD_three_shift _ _ hi]
    by_cases h8 : i < 8
    · simp [hi, h8]
    · simp [h8, BitVec.getLsbD_of_ge _ _ (show 8 ≤ i by omega)]
  unfold buddyTest
  rw [beq_iff_eq, BitVec.eq_of_getLsbD_eq_iff]
  by_cases h8 : 8 ≤ off % 32
  · refine ⟨fun _ => .inl h8, fun _ i hi => ?_⟩
    have h : ¬ (i < 8 ∧ (i = off / 2 * 2 % 32 ∨ i = off / 2 * 2 % 32 + 1)) := by omega
    rw [hs i hi, BitVec.getLsbD_zero]
    by_cases hi8 : i < 8
    · have h' : ¬ (i = off / 2 * 2 % 32 ∨ i = off / 2 * 2 % 32 + 1) := fun e => h ⟨hi8, e⟩
      simp [h']
    · simp [hi8]
  · have q0 : 2 * (off / 2) / 8 = off / 8 := by omega
    have q1 : (2 * (off / 2) + 1) / 8 = off / 8 := by omega
    have r0 : 2 * (off / 2) % 8 = off / 2 * 2 % 32 := by omega
    have r1 : (2 * (off / 2) + 1) % 8 = off / 2 * 2 % 32 + 1 := by omega
    have hlt : off / 2 * 2 % 32 + 1 < 8 := by omega
    unfold BitMap.get
    rw [q0, q1, r0, r1]
    constructor
    · intro h
      have h0 := h (off / 2 * 2 % 32) (by omega)
      have h1 := h (off / 2 * 2 % 32 + 1) (by omega)
      rw [hs _ (by omega), BitVec.getLsbD_zero] at h0 h1
      have l0 : off / 2 * 2 % 32 < 8 := by omega
      simp only [l0, hlt, decide_true, true_or, or_true, Bool.true_and, Bool.and_true] at h0 h1
      exact .inr ⟨h0, h1⟩
    · rintro (h | ⟨h0, h1⟩) i hi
      · exact absurd h h8
      · rw [hs i hi, BitVec.getLsbD_zero]
        by_cases e0 : i = off / 2 * 2 % 32
        · rw [e0, h0]; simp
        · by_cases e1 : i = off / 2 * 2 % 32 + 1
          · rw [e1, h1]; simp
          · simp [e0, e1]

/-- the test as the loop runs it, right after bit `o` of order `j` was cleared -/
theorem buddyTest_clear (bitmap : Nat → Nat → BitVec 8) (j o : Nat) :
    buddyTest (Function.update bitmap j (clear (bitmap j) o) j) o = true ↔
      8 ≤ o % 32 ∨ bits bitmap j (buddy o) = false := by
  have h := children_half (upd (bits bitmap) j o false j) o
  rw [upd_same, upd_node _ _ _ _ _ _ (buddy_ne o), Bool.false_or, ← bits_clear] at h
  rw [buddyTest_iff, ← Bool.or_eq_false_iff]
  show _ ∨ (bits _ j _ || bits _ j _) = false ↔ _
  rw [h]

/-! ## releasing a page -/

theorem bits_freeOrders_self (n j o : Nat) (bitmap : Nat → Nat → BitVec 8) :
    bits (freeOrders (n + 1) j o bitmap) j o = false := by
  have h : bits (Function.update bitmap j (clear (bitmap j) o)) j o = false := by
    rw [bits_clear, upd_same]
  rw [freeOrders_succ]
  split
  · unfold bits at *
    rw [freeOrders_below _ _ _ _ _ (by omega), h]
  · exact h

/-- where the release of bit `o`, started at order `j` with `n` orders left, must not go wrong -/
def ReleaseFrom (n j o : Nat) (bitmap : Nat → Nat → BitVec 8) : Prop :=
  ∀ i, i + 1 < n → (∀ l, l < i → bits bitmap (j + l) (buddy (o / 2^l)) = false) →
    8 ≤ o / 2^i % 32 → bits bitmap (j + i) (buddy (o / 2^i)) = false

theorem div_two_pow_succ (o i : Nat) : o / 2^(i + 1) = o / 2 / 2^i := by
  rw [Nat.div_div_eq_div_mul, Nat.pow_succ']

/-- one order up, when the buddy is clear -/
theorem releaseFrom_succ (n j o : Nat) (bitmap : Nat → Nat → BitVec 8)
    (hb : bits bitmap j (buddy o) = false) :
    ReleaseFrom (n + 1) j o bitmap ↔
      ReleaseFrom n (j + 1) (o / 2) (Function.update bitmap j (clear (bitmap j) o)) := by
  have hup : ∀ l, bits (Function.update bitmap j (clear (bitmap j) o)) (j + 1 + l)
      (buddy (o / 2 / 2^l)) = bits bitmap (j + (l + 1)) (buddy (o / 2^(l + 1))) := by
    intro l
    have e : j + (l + 1) = j + 1 + l := by omega
    rw [bits_clear, upd_level _ _ _ _ _ _ (by omega), div_two_pow_succ, e]
  constructor
  · intro h i hi hlow h8
    rw [hup]
    refine h (i + 1) (by omega) (fun l hl => ?_) (by rw [div_two_pow_succ]; exact h8)
    rcases l with _ | l
    · simpa using hb
    · rw [← hup]; exact hlow l (by omega)
  · intro h i hi hlow h8
    rcases i with _ | i
    · simpa using hb
    · rw [← hup]
      refine h i (by omega) (fun l hl => ?_) (by rw [← div_two_pow_succ]; exact h8)
      rw [hup]; exact hlow (l + 1) (by omega)

/-- a parent is cleared although the buddy is in use -/
theorem not_ok_freeOrders {n j o : Nat} {bitmap : Nat → Nat → BitVec 8} (hn : j + (n + 1 + 1) = PMB_MAX_ORDER)
    (hb : bits bitmap j (buddy o) = true)
    (ht : buddyTest (Function.update bitmap j (clear (bitmap j) o) j) o = true) :
    ¬ Ok PMB_MAX_ORDER (bits (freeOrders (n + 1 + 1) j o bitmap)) := by
  intro hok
  have hl : Link _ j (o / 2) := hok j (by omega) (o / 2)
  have hself : bits (freeOrders (n + 1 + 1) j o bitmap) (j + 1) (o / 2) = false := by
    rw [freeOrders_succ, if_pos ht]
    exact bits_freeOrders_self n (j + 1) (o / 2) _
  have hbud : bits (freeOrders (n + 1 + 1) j o bitmap) j (buddy o) = true := by
    rw [freeOrders_succ, if_pos ht]
    have e : bits (freeOrders (n + 1) (j + 1) (o / 2)
        (Function.update bitmap j (clear (bitmap j) o))) j
        = bits (Function.update bitmap j (clear (bitmap j) o)) j := by
      funext k
      unfold bits
      rw [freeOrders_below _ _ _ _ _ (by omega)]
    rw [e, bits_clear, upd_node _ _ _ _ _ _ (buddy_ne o), hb]
  unfold Link at hl
  rw [children_half, hself, hbud, Bool.or_true] at hl
  exact absurd hl (by simp)

/-- what a repair started at order `j` needs; induction on the orders left -/
theorem ok_freeOrders (n j o : Nat) (bitmap : Nat → Nat → BitVec 8) (hn : j + n = PMB_MAX_ORDER)
    (h : ClearBut PMB_MAX_ORDER (bits bitmap) j o) :
    Ok PMB_MAX_ORDER (bits (freeOrders n j o bitmap)) ↔ ReleaseFrom n j o bitmap := by
  induction n generalizing j o bitmap with
  | zero =>
    refine iff_of_true (fun i hi k => h.links i hi k (by omega)) (fun i hi => absurd hi (by omega))
  | succ n ih =>
    by_cases hb : bits bitmap j (buddy o) = false
    · have ht := (buddyTest_clear bitmap j o).mpr (.inr hb)
      have hc := h.climb hb
      rw [← bits_clear] at hc
      rw [freeOrders_succ, if_pos ht, releaseFrom_succ n j o bitmap hb,
        ← ih (j + 1) (o / 2) _ (by omega) hc]
    · have hb' : bits bitmap j (buddy o) = true := by simpa using hb
      have hlow : ∀ i, 0 < i →
          ¬ ∀ l, l < i → bits bitmap (j + l) (buddy (o / 2^l)) = false := by
        intro i hi hall
        have h0 := hall 0 hi
        simp [hb'] at h0
      by_cases h8 : 8 ≤ o % 32
      · have ht := (buddyTest_clear bitmap j o).mpr (.inl h8)
        rcases n with _ | n
        · -- the top order: there is no parent to get wrong
          refine iff_of_true ?_ (fun i hi => absurd hi (by omega))
          have htop := h.top (by omega)
          rw [← bits_clear] at htop
          rw [freeOrders_succ, if_pos ht]
          exact htop
        · -- the parent is wrong
          refine iff_of_false (not_ok_freeOrders hn hb' ht) fun hr => ?_
          have h0 := hr 0 (by omega) (fun l hl => absurd hl (by omega)) (by simpa using h8)
          simp [hb'] at h0
      · have ht : ¬ buddyTest (Function.update bitmap j (clear (bitmap j) o) j) o = true := by
          rw [buddyTest_clear]
          rintro (h | h)
          · exact h8 h
          · exact hb h
        refine iff_of_true ?_ ?_
        · have hs := h.stop hb'
          rw [← bits_clear] at hs
          rw [freeOrders_succ, if_neg ht]
          exact hs
        · intro i hi hall h8'
          rcases i with _ | i
          · exact absurd (by simpa using h8') h8
          · exact absurd hall (hlow (i + 1) (by omega))

/-- at every order that the release of bit `off` climbs through (all buddies below are clear), the
buddy is clear if the shifted mask misses the byte -/
def ReleaseOk (bitmap : Nat → Nat → BitVec 8) (off : Nat) : Prop :=
  ∀ j, j + 1 < PMB_MAX_ORDER → (∀ i, i < j → get (bitmap i) (buddy (off / 2^i)) = false) →
    8 ≤ off / 2^j % 32 → get (bitmap j) (buddy (off / 2^j)) = false

/-- **A release keeps the hierarchy exactly if it is `ReleaseOk`.** -/
theorem hierarchy_freeOrders (bitmap : Nat → Nat → BitVec 8) (off : Nat) (h : Hierarchy bitmap) :
    Hierarchy (freeOrders PMB_MAX_ORDER 0 off bitmap) ↔ ReleaseOk bitmap off := by
  rw [hierarchy_iff, ok_freeOrders _ _ _ _ (by rfl) (((hierarchy_iff _).mp h).clearBut off)]
  unfold ReleaseFrom ReleaseOk
  simp only [Nat.zero_add]
  rfl

/-! ## taking a page -/

theorem ok_usedOrders (n j o : Nat) (bitmap : Nat → Nat → BitVec 8) (hn : j + n = PMB_MAX_ORDER)
    (h : SetBut PMB_MAX_ORDER (bits bitmap) j o) :
    Ok PMB_MAX_ORDER (bits (usedOrders n j o bitmap)) := by
  induction n generalizing j o bitmap with
  | zero => exact h.top (by omega)
  | succ n ih =>
    unfold usedOrders
    split
    · exact h.stop (by assumption)
    · have hc := h.climb
      rw [← bits_set] at hc
      exact ih (j + 1) (o / 2) _ (by omega) hc

theorem hierarchy_usedOrders (bitmap : Nat → Nat → BitVec 8) (off : Nat) (h : Hierarchy bitmap) :
    Hierarchy (usedOrders PMB_MAX_ORDER 0 off bitmap) :=
  ok_usedOrders _ _ _ _ (by rfl) (((hierarchy_iff _).mp h).setBut off)

/-! ## runs -/

/-- a call of one of the two marking functions -/
inductive MarkOp where
  | free (page : Nat)
  | used (page : Nat)

def markStep (alloc : PhysicalMemoryAllocator) : MarkOp → Option PhysicalMemoryAllocator
  | .free page => some (markPageFree alloc page)
  | .used page => some (markPageUsed alloc page)

/-- every block that is set up has all its bitmaps filled with ones -/
def Filled (alloc : PhysicalMemoryAllocator) : Prop :=
  ∀ b ∈ alloc.blocks, b.npages ≠ 0 → ∀ j i, b.bitmap j i = 0xff#8

/-- the hierarchy holds in every block that is set up -/
def BuddyInv (alloc : PhysicalMemoryAllocator) : Prop :=
  ∀ b ∈ alloc.blocks, b.npages ≠ 0 → Hierarchy b.bitmap

/-- the calls that keep the hierarchy: see `ReleaseOk` -/
def MarkOk (alloc : PhysicalMemoryAllocator) : MarkOp → Prop
  | .free page => ∀ b, blockOf alloc.blocks page = some b → ReleaseOk b.bitmap (b.offset page)
  | .used _ => True

theorem Filled.buddyInv {alloc : PhysicalMemoryAllocator} (h : Filled alloc) : BuddyInv alloc := by
  intro b hb hn j _ k
  have hf : ∀ j k, get (b.bitmap j) k = true := by
    intro j k
    have e : b.bitmap j = ones := funext (h b hb hn j)
    rw [e, get_ones]
  rw [hf, hf, hf]
  rfl

theorem buddyInv_markPageFree (alloc : PhysicalMemoryAllocator) (page : Nat) (h : BuddyInv alloc) :
    BuddyInv (markPageFree alloc page) ↔ MarkOk alloc (.free page) := by
  show (∀ b ∈ onBlock .free page alloc.blocks, b.npages ≠ 0 → Hierarchy b.bitmap) ↔ _
  rw [forall_onBlock (fun b => b.npages ≠ 0 → Hierarchy b.bitmap) _ _ _ h]
  constructor
  · intro hall b hb
    have hn := covers_npages (blockOf_covers hb)
    exact (hierarchy_freeOrders _ _ (h b (List.mem_of_find?_eq_some hb) hn)).mp (hall b hb hn)
  · intro hok b hb hn
    exact (hierarchy_freeOrders _ _ (h b (List.mem_of_find?_eq_some hb) hn)).mpr (hok b hb)

theorem buddyInv_markPageUsed (alloc : PhysicalMemoryAllocator) (page : Nat) (h : BuddyInv alloc) :
    BuddyInv (markPageUsed alloc page) := by
  show ∀ b ∈ onBlock .use page alloc.blocks, b.npages ≠ 0 → Hierarchy b.bitmap
  rw [forall_onBlock (fun b => b.npages ≠ 0 → Hierarchy b.bitmap) _ _ _ h]
  intro b hb hn
  exact hierarchy_usedOrders _ _ (h b (List.mem_of_find?_eq_some hb) hn)

/-- **The hierarchy along a run**: from bitmaps filled with ones, it holds after every call exactly
if every release is `ReleaseOk` where it happens. -/
theorem buddy_hierarchy (alloc : PhysicalMemoryAllocator) (h : Filled alloc) (ops : List MarkOp) :
    Always markStep BuddyInv (fun _ _ _ => True) alloc ops ↔ Along markStep MarkOk alloc ops := by
  refine always_iff_along (J := fun _ => True) ?_ ?_ ops alloc trivial
    h.buddyInv (along_of_forall ops (fun _ _ _ => trivial) alloc)
  · intro s op _ hs _ hok
    cases op with
    | free page => exact ⟨_, rfl, trivial, (buddyInv_markPageFree s page hs).mpr hok, trivial⟩
    | used page => exact ⟨_, rfl, trivial, buddyInv_markPageUsed s page hs, trivial⟩
  · intro s op s' _ hs _ hstep _ hs'
    cases op with
    | free page =>
      have e : markPageFree s page = s' := Option.some.inj hstep
      rw [← e] at hs'
      exact (buddyInv_markPageFree s page hs).mp hs'
    | used page => exact trivial

/-- one block of 16 pages, every page in use -/
def onesAlloc : PhysicalMemoryAllocator where
  blocks := ⟨0x1000000, 16, fun _ _ => 0xff⟩ :: List.replicate 15 default
  pagesTotal := 16
  pagesFree := 0
  count := rfl

theorem onesAlloc_filled : Filled onesAlloc := by
  intro b hb hn j i
  rcases List.mem_cons.mp hb with e | e
  · rw [e]; rfl
  · rw [List.eq_of_mem_replicate e] at hn
    exact absurd rfl hn

/-- releasing page 6 and page 7 of a block of pages in use is harmless -/
theorem buddy_hierarchy_ones :
    Always markStep BuddyInv (fun _ _ _ => True) onesAlloc [.free 0x1006000, .free 0x1007000] := by
  refine (buddy_hierarchy onesAlloc onesAlloc_filled _).mpr ⟨?_, fun s hs => ⟨?_, fun _ _ => trivial⟩⟩
  · intro b hb j hj hlow h8
    have e : b = ⟨0x1000000, 16, fun _ _ => 0xff⟩ := (Option.some.inj hb).symm
    subst e
    rcases j with _ | j
    · exact absurd h8 (by decide)
    · exact absurd (hlow 0 (by omega)) (by decide)
  · have e : s = markPageFree onesAlloc 0x1006000 := (Option.some.inj hs).symm
    subst e
    intro b hb j hj hlow h8
    have hoff : b.offset 0x1007000 / 2^j ≤ 7 := by
      have e : b.base = 0x1000000 := by
        rw [← Option.some.inj hb]; rfl
      have e' : b.offset 0x1007000 = 7 := by
        unfold PhysicalMemoryBlock.offset; rw [e]; rfl
      rw [e']
      exact Nat.div_le_self _ _
    have h7 := Nat.mod_le (b.offset 0x1007000 / 2^j) 32
    exact absurd (h8.trans (h7.trans hoff)) (by decide)

/-- releasing page 8 clears its order-1 bit although page 9 is in use -/
theorem buddy_hierarchy_fails :
    ¬ Always markStep BuddyInv (fun _ _ _ => True) onesAlloc [.free 0x1008000] := by
  rintro ⟨_, s, hs, _, hinv⟩
  have e : s = markPageFree onesAlloc 0x1008000 := (Option.some.inj hs).symm
  subst e
  have h := hinv _ (List.mem_cons_self ..) (by decide) 0 (by decide) 4
  revert h
  decide

end FuseeOS
