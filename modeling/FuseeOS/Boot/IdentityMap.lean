import FuseeOS.Boot.VallocRun

/-!
# The identity map

`bootstrap_paging` maps the first GiB with three tables, and `memory_identity_map` the first four GiB with
tables of its own.  It writes to the new tables through the old ones, and from the second GiB on through
those that it is writing.

* `LowMap.translate`            what tables of this shape translate;
* `bootstrap_lowMap`            the three tables have it;
* `mapIdentity2mib_spec`        one entry more (`IdentityBuilt`);
* `identity_row`                the 512 entries of a GiB;
* **`memory_identity_map`**     when the run ends, every address below 4 GiB is found in place, and nothing
                                of the upper half is mapped; it does not end if the top table is not
                                within the first GiB.
-/

namespace FuseeOS
open Bytes Radix BootMemRegion Outcome

/-! ## the code -/

/-- the loop at `fill_pd_loop`: `%eax`, and `%edi` from the start of the table on -/
def fillPd (mem : Nat → UInt8) (pd eax edi : Nat) : Nat → (Nat → UInt8)
  | 0 => mem
  | ecx + 1 =>
    let mem := store mem (pd + edi) (le 4 eax)
    let mem := store mem (pd + edi + 4) (le 4 0)
    fillPd mem pd ((eax + 0x200000) % 2^32) (edi + 8) ecx

/-- `bootstrap_paging`; the three tables are one behind the other -/
def bootstrapPaging (pml4 : Nat) (mem : Nat → UInt8) : Nat → UInt8 :=
  let pdp := pml4 + 0x1000
  let pd := pdp + 0x1000
  let mem := store mem pml4 (List.replicate 0x1000 0)
  let mem := store mem pml4 (le 4 (pdp + 1))
  let mem := store mem pdp (List.replicate 0x1000 0)
  let mem := store mem pdp (le 4 (pd + 1))
  fillPd mem pd 0x81 0 0x200

/-- the first page of `alloc_page_lo` -/
abbrev ALLOC_PAGE_LO : Nat := 0x100000

/-- The bootloader while it makes its tables: `cpuCr3` is the table that the processor walks, and `page` the
static variable of `alloc_page_lo`. -/
structure EarlyLoader extends Loader where
  cpuCr3 : Nat
  page : Nat

namespace EarlyLoader

/-- where an access to `va` goes -/
def addr (e : EarlyLoader) (va : Nat) : Except LoadStop Nat :=
  (translate e.words e.cpuCr3 va).elim (.error .fault) fun t => .ok t.addr

/-- the aligned word at `va` -/
def read64 (e : EarlyLoader) (va : Nat) : Except LoadStop (BitVec 64) := do
  let p ← e.addr va
  return BitVec.ofNat 64 (readLe e.mem p 8)

def write64 (e : EarlyLoader) (va : Nat) (w : BitVec 64) : Except LoadStop EarlyLoader := do
  let p ← e.addr va
  return { e with mem := store e.mem p (le 8 w.toNat) }

/-- `memset(va, 0, n)` -/
def clear (e : EarlyLoader) (va : Nat) : Nat → Except LoadStop EarlyLoader
  | 0 => .ok e
  | n + 1 => do
    let p ← e.addr va
    clear { e with mem := store e.mem p [0] } (va + 1) n

def zeroPage (e : EarlyLoader) (page : Nat) : Except LoadStop EarlyLoader := e.clear page PAGESIZE

def allocPageLo (e : EarlyLoader) : Except LoadStop (Nat × EarlyLoader) := do
  let tmp := e.page
  let e ← zeroPage { e with page := (e.page + PAGESIZE) % 2^64 } tmp
  return (tmp, e)

/-- `alloc_page_hi`; the run is not followed where no entry has memory -/
def allocPageHi (e : EarlyLoader) : Except LoadStop (Nat × EarlyLoader) :=
  (takeHi FREE_SCAN e.memFree).elim (.error .noFrame) fun (tmp, memFree) => do
    let e ← zeroPage { e with memFree := memFree } tmp
    return (tmp, e)

/-- the table behind `tmp[i]`, which is made if it is missing -/
def tableAt (e : EarlyLoader) (tmp i : Nat) : Except LoadStop (Nat × EarlyLoader) := do
  let tmp2 ← e.read64 (tmp + 8 * i)
  if tmp2 = 0 then do
    let (page, e) ← e.allocPageLo
    let tmp2 := BitVec.ofNat 64 page ||| 3
    let e ← e.write64 (tmp + 8 * i) tmp2
    return (tableOf tmp2, e)
  else return (tableOf tmp2, e)

def mapIdentity2mib (e : EarlyLoader) (i j : Nat) : Except LoadStop EarlyLoader := do
  let (tmp, e) ← e.tableAt e.cr3 0
  let (tmp, e) ← e.tableAt tmp i
  e.write64 (tmp + 8 * j) (BitVec.ofNat 64 ((i * 0x200 + j) * 0x200000) ||| 0x83)

/-- `mov %0, %cr3` -/
def loadCr3 (e : EarlyLoader) : EarlyLoader := { e with cpuCr3 := e.cr3 }

/-- the inner loop, and the new tables -/
def mapGib (e : EarlyLoader) (i : Nat) : Except LoadStop EarlyLoader := do
  let e ← (List.range 0x200).foldlM (fun e j => e.mapIdentity2mib i j) e
  return e.loadCr3

def memoryIdentityMap (e : EarlyLoader) : Except LoadStop EarlyLoader := do
  let (page, e) ← e.allocPageHi
  (List.range 4).foldlM mapGib { e with cr3 := page }

end EarlyLoader

/-! ## tables of 2 MiB pages -/

/-- an entry with the address `p` -/
def entryTo (p : Nat) (flags : BitVec 64) : BitVec 64 := BitVec.ofNat 64 p ||| flags

/-- The first `k` GiB by a directory `pd i` for each; the flags of the tables are 1 or 3. -/
structure LowMap (mem : PhysMem) (write : Bool) (root pdp : Nat) (pd : Nat → Nat) (k : Nat) : Prop where
  aligned : pdp % 4096 = 0 ∧ pdp < 2^47
  dirs : ∀ i < k, pd i % 4096 = 0 ∧ pd i < 2^47
  top : mem root 0 = entryTo pdp (bif write then 3 else 1)
  dir : ∀ i : Fin 512, i.val < k → mem pdp i = entryTo (pd i) (bif write then 3 else 1)
  page : ∀ i : Fin 512, i.val < k → ∀ j : Fin 512,
    mem (pd i) j = entryTo ((i * 512 + j) * 0x200000) (bif write then 0x83 else 0x81)

/-- flags that are no address bits -/
theorem frameOf_or {w f g : BitVec 64} (hf : f &&& FRAME_MASK = 0) (hg : g &&& FRAME_MASK = 0) :
    frameOf (w ||| f) = frameOf (w ||| g) := by
  have hor (f : BitVec 64) (hf : f &&& FRAME_MASK = 0) : (w ||| f) &&& FRAME_MASK = w &&& FRAME_MASK := by
    apply BitVec.eq_of_getLsbD_eq
    intro i hi
    have hbit := congrArg (fun x : BitVec 64 => x.getLsbD i) hf
    simp only [BitVec.getLsbD_and] at hbit
    have hzero : BitVec.getLsbD (0 : BitVec 64) i = false := BitVec.getLsbD_zero
    rw [BitVec.getLsbD_and, BitVec.getLsbD_or, BitVec.getLsbD_and, Bool.and_or_distrib_right, hbit, hzero, Bool.or_false]
  unfold frameOf
  rw [hor f hf, hor g hg]

section
variable {p : Nat} {write : Bool} (hp : p % 4096 = 0) (hlt : p < 2^47)
include hp hlt

/-- an entry that points to a table -/
theorem table_entryTo : present (entryTo p (bif write then 3 else 1)) = true ∧
    large (entryTo p (bif write then 3 else 1)) = false ∧
    frameOf (entryTo p (bif write then 3 else 1)) = p ∧
    ∀ w u, allow ⟨0, w, u, false⟩ (entryTo p (bif write then 3 else 1)) = ⟨0, w && write, false, false⟩ := by
  have hf : IsFlags (bif write then 3 else 1) := by
    cases write <;> rfl
  unfold present large allow writable userOk noExec entryTo
  rw [bit_entry hp hlt (by omega), bit_entry hp hlt (by omega), frameOf_entry hp hlt hf,
    bit_entry hp hlt (by omega), bit_entry hp hlt (by omega), bit_entry hp hlt (by omega)]
  cases write <;> simp

/-- an entry that points to a page of 2 MiB -/
theorem page_entryTo : present (entryTo p (bif write then 0x83 else 0x81)) = true ∧
    large (entryTo p (bif write then 0x83 else 0x81)) = true ∧
    frameOf (entryTo p (bif write then 0x83 else 0x81)) = p ∧
    ∀ w, allow ⟨0, w, false, false⟩ (entryTo p (bif write then 0x83 else 0x81)) = ⟨0, w && write, false, false⟩ := by
  have hframe : frameOf (entryTo p (bif write then 0x83 else 0x81)) = p := by
    have hsame : frameOf (entryTo p (bif write then 0x83 else 0x81)) = frameOf (entryTo p 1) := by
      refine frameOf_or ?_ rfl
      cases write <;> rfl
    rw [hsame]
    exact frameOf_entry hp hlt rfl
  unfold present large allow writable userOk noExec
  rw [hframe]
  unfold entryTo
  rw [bit_entry hp hlt (by omega), bit_entry hp hlt (by omega), bit_entry hp hlt (by omega),
    bit_entry hp hlt (by omega), bit_entry hp hlt (by omega)]
  cases write <;> simp

end

/-- **What the tables translate.** -/
theorem LowMap.translate {mem : PhysMem} {write : Bool} {root pdp k va : Nat} {pd : Nat → Nat}
    (h : LowMap mem write root pdp pd k) (hk : k ≤ 512) (hva : va < k * 2^30) :
    FuseeOS.translate mem root va = some ⟨va, write, false, false⟩ := by
  have hi3 : pageIndex (va / 4096) 3 = 0 := by
    apply Fin.ext
    show va / 4096 / 512^3 % 512 = 0
    omega
  have hi2 : (pageIndex (va / 4096) 2).val = va / 2^30 := by
    show va / 4096 / 512^2 % 512 = _
    omega
  have hi1 : (pageIndex (va / 4096) 1).val = va / 2^21 % 512 := by
    show va / 4096 / 512^1 % 512 = _
    omega
  have hlt : (pageIndex (va / 4096) 2).val < k := by omega
  obtain ⟨hpres, hsmall, hframe, hallow⟩ := @table_entryTo _ write h.aligned.1 h.aligned.2
  obtain ⟨hpd, hpdlt⟩ := h.dirs _ hlt
  obtain ⟨hpres', hsmall', hframe', hallow'⟩ := @table_entryTo _ write hpd hpdlt
  have hbase : ((pageIndex (va / 4096) 2).val * 512 + (pageIndex (va / 4096) 1).val) * 0x200000 =
      va / 2^21 * 2^21 := by
    rw [hi2, hi1]
    omega
  obtain ⟨hpres'', hlarge'', hframe'', hallow''⟩ :=
    @page_entryTo (va / 2^21 * 2^21) write (by omega) (by omega)
  have hc : canonical va := .inl (by omega)
  have hw3 : mem root (pageIndex (va / 4096) 3) = entryTo pdp (bif write then 3 else 1) := by
    rw [hi3]
    exact h.top
  have hw2 := h.dir _ hlt
  have hw1 := h.page _ hlt (pageIndex (va / 4096) 1)
  rw [hbase] at hw1
  unfold FuseeOS.translate
  rw [if_pos hc, translateFrom_table (by rw [hw3]; exact hpres) (by rw [hw3]; exact hsmall), hw3, hframe,
    hallow, translateFrom_table (by rw [hw2]; exact hpres') (by rw [hw2]; exact hsmall'), hw2, hframe', hallow',
    translateFrom_large (by rw [hw1]; exact hpres'') (by rw [hw1]; exact hlarge'') (by omega), hw1, hframe'',
    hallow'', Bool.true_and, Bool.and_self, Bool.and_self]
  have hsize : 4096 * 512^(0 + 1) = 2^21 := rfl
  rw [hsize, Nat.mul_div_cancel _ (Nat.two_pow_pos 21), Nat.div_add_mod']

/-- the other entries of the two upper tables are empty, those of the top table below `b` -/
structure LowOnly (mem : PhysMem) (root pdp k b : Nat) : Prop where
  top : ∀ i : Fin 512, i ≠ 0 → i.val < b → mem root i = 0
  dir : ∀ i : Fin 512, k ≤ i.val → mem pdp i = 0

theorem translateFrom_zero {mem : PhysMem} {va k t : Nat} {perm : Translation}
    (h : mem t (pageIndex (va / 4096) k) = 0) : translateFrom mem va k t perm = none := by
  unfold translateFrom
  rw [h]
  rfl

/-- **Nothing else is translated.** -/
theorem LowMap.translate_none {mem : PhysMem} {write : Bool} {root pdp k b va : Nat} {pd : Nat → Nat}
    (h : LowMap mem write root pdp pd k) (ho : LowOnly mem root pdp k b) (hva : k * 2^30 ≤ va) (hlt : va < 2^64)
    (hb : va / 2^39 % 512 < b) :
    FuseeOS.translate mem root va = none := by
  unfold FuseeOS.translate
  split_ifs with hc
  · by_cases hi3 : pageIndex (va / 4096) 3 = 0
    · obtain ⟨hpres, hsmall, hframe, -⟩ := @table_entryTo _ write h.aligned.1 h.aligned.2
      have hw3 : mem root (pageIndex (va / 4096) 3) = entryTo pdp (bif write then 3 else 1) := by
        rw [hi3]
        exact h.top
      rw [translateFrom_table (by rw [hw3]; exact hpres) (by rw [hw3]; exact hsmall), hw3, hframe]
      refine translateFrom_zero (ho.dir _ ?_)
      have hzero := congrArg Fin.val hi3
      have hz : va / 4096 / 512^3 % 512 = 0 := hzero
      show k ≤ va / 4096 / 512^2 % 512
      unfold canonical at hc
      omega
    · refine translateFrom_zero (ho.top _ hi3 ?_)
      show va / 4096 / 512^3 % 512 < b
      omega
  · rfl

/-! ## the first tables -/

/-- two halves of an entry -/
theorem readLe_halves {mem : Nat → UInt8} {a n : Nat} (hlow : readLe mem a 4 = n) (hhigh : readLe mem (a + 4) 4 = 0) :
    readLe mem a 8 = n := by
  rw [readLe_add mem a 4 4, hlow, hhigh, Nat.mul_zero, Nat.add_zero]

/-- the loop leaves the bytes before its table alone, and fills `n` entries -/
theorem fillPd_spec {pd edi eax : Nat} (n : Nat) (mem : Nat → UInt8) (hlt : eax + n * 0x200000 < 2^32) :
    (∀ a < pd + edi, fillPd mem pd eax edi n a = mem a) ∧
      ∀ j < n, readLe (fillPd mem pd eax edi n) (pd + edi + 8 * j) 8 = eax + j * 0x200000 := by
  induction n generalizing mem eax edi with
  | zero => exact ⟨fun _ _ => rfl, fun j hj => absurd hj (Nat.not_lt_zero j)⟩
  | succ n ih =>
    have hnext : (eax + 0x200000) % 2^32 = eax + 0x200000 := Nat.mod_eq_of_lt (by omega)
    obtain ⟨hkept, hfill⟩ := @ih (edi + 8) (eax + 0x200000)
      (store (store mem (pd + edi) (le 4 eax)) (pd + edi + 4) (le 4 0)) (by omega)
    rw [fillPd, hnext]
    refine ⟨fun a ha => ?_, fun j hj => ?_⟩
    · rw [hkept a (by omega), store_of_lt _ _ (by omega), store_of_lt _ _ ha]
    · cases j with
      | zero =>
        have hsame := @readLe_congr (fillPd (store (store mem (pd + edi) (le 4 eax)) (pd + edi + 4) (le 4 0))
          pd (eax + 0x200000) (edi + 8) n) _ (pd + edi) 8 fun k hk => hkept _ (by omega)
        have hlow := readLe_store_beside (store mem (pd + edi) (le 4 eax)) (a := pd + edi) (b := pd + edi + 4)
          (w := 4) (le 4 0) (.inl (Nat.le_refl _))
        rw [readLe_store mem _ (by omega)] at hlow
        show readLe _ (pd + edi) 8 = eax
        rw [hsame]
        exact readLe_halves hlow (readLe_store _ _ (by decide))
      | succ j =>
        have haddr : pd + edi + 8 * (j + 1) = pd + (edi + 8) + 8 * j := by omega
        rw [haddr, hfill j (by omega)]
        omega

/-- an entry is the sum of its parts -/
theorem entryTo_add {p f : Nat} (hp : p % 4096 = 0) (hf : f < 4096) :
    BitVec.ofNat 64 (p + f) = entryTo p (BitVec.ofNat 64 f) := by
  have hsum : p + f = p ||| f := by
    have hor := @Nat.two_pow_add_eq_or_of_lt 12 f hf (p / 4096)
    have hdiv : 2^12 * (p / 4096) = p := by omega
    rw [hdiv] at hor
    exact hor
  rw [hsum, BitVec.ofNat_or, entryTo]

/-- an entry of a table that was cleared before its low half was written -/
theorem readLe_first (mem : Nat → UInt8) (t : Nat) {n : Nat} (hn : n < 2^32) :
    readLe (store (store mem t (List.replicate 0x1000 0)) t (le 4 n)) t 8 = n := by
  refine readLe_halves (readLe_store _ _ hn) (readLe_zero fun k hk => ?_)
  have hat := holdsAt_store mem t (List.replicate 0x1000 (0 : UInt8)) (4 + k) (by
    rw [List.length_replicate]
    omega)
  rw [store_of_ge _ _ (by rw [length_le]; omega), Nat.add_assoc, hat, List.getElem_replicate]

/-- **The three tables of `bootstrap_paging`.** -/
theorem bootstrap_lowMap (pml4 : Nat) (hal : pml4 % 4096 = 0) (hlow : pml4 + 0x3000 ≤ ALLOC_PAGE_LO)
    (mem : Nat → UInt8) {m : Loader} (hm : m.mem = bootstrapPaging pml4 mem) :
    LowMap m.words false pml4 (pml4 + 0x1000) (fun _ => pml4 + 0x2000) 1 := by
  unfold ALLOC_PAGE_LO at hlow
  obtain ⟨hkept, hfill⟩ := @fillPd_spec (pml4 + 0x1000 + 0x1000) 0 0x81 0x200
    (store (store (store (store mem pml4 (List.replicate 0x1000 0)) pml4 (le 4 (pml4 + 0x1000 + 1)))
      (pml4 + 0x1000) (List.replicate 0x1000 0)) (pml4 + 0x1000) (le 4 (pml4 + 0x1000 + 0x1000 + 1))) (by omega)
  have hword {t : Nat} (ht : t % 4096 = 0) (i : Fin 512) :
      m.words t i = BitVec.ofNat 64 (readLe (bootstrapPaging pml4 mem) (t + 8 * i) 8) := by
    rw [Loader.words, if_pos ht, hm]
  have htop : readLe (bootstrapPaging pml4 mem) pml4 8 = pml4 + 0x1000 + 1 := by
    unfold bootstrapPaging
    rw [readLe_congr fun k hk => hkept _ (by omega), readLe_store_beside _ _ (.inl (by omega)),
      readLe_store_beside _ _ (.inl (by omega)), readLe_first mem pml4 (by omega)]
  have hdir : readLe (bootstrapPaging pml4 mem) (pml4 + 0x1000) 8 = pml4 + 0x1000 + 0x1000 + 1 := by
    unfold bootstrapPaging
    rw [readLe_congr fun k hk => hkept _ (by omega), readLe_first _ (pml4 + 0x1000) (by omega)]
  refine ⟨⟨by omega, by omega⟩, fun _ _ => ⟨by omega, by omega⟩, ?_, fun i hi => ?_, fun i hi j => ?_⟩
  · have hz : pml4 + 8 * (0 : Fin 512).val = pml4 := rfl
    rw [hword hal, hz, htop]
    exact entryTo_add (by omega) (by decide)
  · obtain rfl : i = 0 := Fin.ext (by simpa using hi)
    have hz : pml4 + 0x1000 + 8 * (0 : Fin 512).val = pml4 + 0x1000 := rfl
    rw [hword (by omega), hz, hdir]
    exact entryTo_add (by omega) (by decide)
  · obtain rfl : i = 0 := Fin.ext (by simpa using hi)
    have hz : (0 : Fin 512).val * 512 + j.val = j.val := by simp
    rw [hword (by omega), hz]
    have hread : readLe (bootstrapPaging pml4 mem) (pml4 + 0x2000 + 8 * j) 8 = j * 0x200000 + 0x81 :=
      (hfill j j.isLt).trans (Nat.add_comm _ _)
    rw [hread]
    exact entryTo_add (by omega) (by decide)

/-- the other entries of the two upper ones are empty -/
theorem bootstrap_lowOnly (pml4 : Nat) (hal : pml4 % 4096 = 0) (mem : Nat → UInt8) {m : Loader}
    (hm : m.mem = bootstrapPaging pml4 mem) : LowOnly m.words pml4 (pml4 + 0x1000) 1 512 := by
  obtain ⟨hkept, -⟩ := @fillPd_spec (pml4 + 0x1000 + 0x1000) 0 0x81 0x200
    (store (store (store (store mem pml4 (List.replicate 0x1000 0)) pml4 (le 4 (pml4 + 0x1000 + 1)))
      (pml4 + 0x1000) (List.replicate 0x1000 0)) (pml4 + 0x1000) (le 4 (pml4 + 0x1000 + 0x1000 + 1))) (by omega)
  have hcleared (mem : Nat → UInt8) (t n : Nat) {a : Nat} (h1 : 4 ≤ a) (h2 : a < 0x1000) :
      store (store mem t (List.replicate 0x1000 0)) t (le 4 n) (t + a) = 0 := by
    have hat := holdsAt_store mem t (List.replicate 0x1000 (0 : UInt8)) a (by rwa [List.length_replicate])
    rw [store_of_ge _ _ (by rw [length_le]; omega), hat, List.getElem_replicate]
  have hzero {t : Nat} (ht : t % 4096 = 0) (hmem : ∀ a, 4 ≤ a → a < 0x1000 → bootstrapPaging pml4 mem (t + a) = 0)
      {i : Fin 512} (hi : 1 ≤ i.val) : m.words t i = 0 := by
    have hlt := i.isLt
    rw [Loader.words, if_pos ht, hm, readLe_zero fun k hk => ?_]
    · rfl
    · rw [Nat.add_assoc]
      exact hmem _ (by omega) (by omega)
  refine ⟨fun i hi _ => hzero hal (fun a h1 h2 => ?_) ?_, fun i hi => hzero (by omega) (fun a h1 h2 => ?_) hi⟩
  · unfold bootstrapPaging
    rw [hkept _ (by omega), store_of_lt _ _ (by omega), store_of_lt _ _ (by omega), hcleared _ _ _ h1 h2]
  · by_contra hc
    exact hi (Fin.ext (by
      show i.val = 0
      omega))
  · unfold bootstrapPaging
    rw [hkept _ (by omega), hcleared _ _ _ h1 h2]

/-! ## through the tables that are in force -/

/-- the walk below 1 GiB reads word `i` of `t` -/
def Used (root pdp pd t : Nat) (i : Fin 512) : Prop := (t = root ∨ t = pdp) ∧ i = 0 ∨ t = pd

theorem LowMap.frame {mem mem' : PhysMem} {write : Bool} {root pdp pd : Nat}
    (h : LowMap mem write root pdp (fun _ => pd) 1)
    (hmem : ∀ t i, Used root pdp pd t i → mem' t i = mem t i) : LowMap mem' write root pdp (fun _ => pd) 1 where
  aligned := h.aligned
  dirs := h.dirs
  top := (hmem root 0 (.inl ⟨.inl rfl, rfl⟩)).trans h.top
  dir i hi := by
    obtain rfl : i = 0 := Fin.ext (by simpa using hi)
    exact (hmem pdp 0 (.inl ⟨.inr rfl, rfl⟩)).trans (h.dir 0 hi)
  page i hi j := (hmem pd j (.inr rfl)).trans (h.page i hi j)

/-- the processor finds the first GiB in place -/
abbrev EarlyLoader.Sees (e : EarlyLoader) (write : Bool) (pdp pd : Nat) : Prop :=
  LowMap e.words write e.cpuCr3 pdp (fun _ => pd) 1

/-- the loader after a word was written -/
def EarlyLoader.put (e : EarlyLoader) (t : Nat) (i : Fin 512) (w : BitVec 64) : EarlyLoader :=
  { e with toLoader := e.toLoader.setWord t i w }

/-- the loader after a page was cleared -/
def EarlyLoader.cleared (e : EarlyLoader) (p : Nat) : EarlyLoader :=
  { e with mem := store e.mem p (List.replicate PAGESIZE 0) }

section
variable {e : EarlyLoader} {write : Bool} {pdp pd t p : Nat}

theorem Sees.addr (h : e.Sees write pdp pd) {va : Nat} (hva : va < 2^30) : e.addr va = .ok va := by
  unfold EarlyLoader.addr
  rw [h.translate (by decide) (by omega)]
  rfl

theorem Sees.read64 (h : e.Sees write pdp pd) (ht : t % 4096 = 0) (hlt : t + 4096 ≤ 2^30) (i : Fin 512) :
    e.read64 (t + 8 * i) = .ok (e.words t i) := by
  have hi := i.isLt
  unfold EarlyLoader.read64
  rw [Sees.addr h (by omega), Loader.words, if_pos ht]
  rfl

theorem Sees.write64 (h : e.Sees write pdp pd) (hlt : t + 4096 ≤ 2^30) (i : Fin 512) (w : BitVec 64) :
    e.write64 (t + 8 * i) w = .ok (e.put t i w) := by
  have hi := i.isLt
  unfold EarlyLoader.write64
  rw [Sees.addr h (by omega)]
  rfl

/-- writing a word that the walk does not read -/
theorem Sees.put (h : e.Sees write pdp pd) (ht : t % 4096 = 0) {i : Fin 512} (w : BitVec 64)
    (hi : ¬ Used e.cpuCr3 pdp pd t i) : (e.put t i w).Sees write pdp pd := by
  refine LowMap.frame h fun s j hs => ?_
  show (e.toLoader.setWord t i w).words s j = _
  rw [words_setWord ht]
  refine setWord_of_ne _ _ fun hst => hi ?_
  obtain ⟨rfl, rfl⟩ := hst
  exact hs

/-- clearing a page that the walk does not read -/
theorem Sees.clear (hp : p % 4096 = 0) (hlt : p + 4096 ≤ 2^30) (n : Nat) :
    ∀ {e : EarlyLoader} {k : Nat}, e.Sees write pdp pd → (∀ i, ¬ Used e.cpuCr3 pdp pd p i) → k + n ≤ 4096 →
      e.clear (p + k) n = .ok { e with mem := store e.mem (p + k) (List.replicate n 0) } := by
  induction n with
  | zero =>
    intro e k _ _ _
    rw [EarlyLoader.clear, List.replicate_zero, store_nil]
  | succ n ih =>
    intro e k h hfresh hk
    have hone : DataWritten e.toLoader p { e.toLoader with mem := store e.mem (p + k) [0] } := by
      refine ⟨fun a ha => ?_, rfl, rfl⟩
      rcases Nat.lt_or_ge a (p + k) with hlt | hge
      · exact store_of_lt _ _ hlt
      · refine store_of_ge _ _ ?_
        rw [List.length_singleton]
        omega
    have hsees : ({ e with mem := store e.mem (p + k) [0] } : EarlyLoader).Sees write pdp pd := by
      refine LowMap.frame h fun s j hs => congrFun (hone.words ?_) j
      rintro rfl
      exact hfresh j hs
    have hrest := @ih { e with mem := store e.mem (p + k) [0] } (k + 1) hsees hfresh (by omega)
    rw [EarlyLoader.clear, Sees.addr h (by omega)]
    refine Eq.trans hrest ?_
    have hstore := store_append e.mem (p + k) [0] (List.replicate n (0 : UInt8))
    rw [List.length_singleton, Nat.add_assoc] at hstore
    dsimp only
    rw [hstore]
    rfl

theorem Sees.zeroPage (h : e.Sees write pdp pd) (hp : p % 4096 = 0) (hlt : p + 4096 ≤ 2^30)
    (hfresh : ∀ i, ¬ Used e.cpuCr3 pdp pd p i) :
    e.zeroPage p = .ok (e.cleared p) ∧ (e.cleared p).Sees write pdp pd := by
  refine ⟨Sees.clear hp hlt PAGESIZE (k := 0) h hfresh (Nat.le_refl _), LowMap.frame h fun s j hs => ?_⟩
  have hsp : s ≠ p := fun hsp => hfresh j (hsp ▸ hs)
  have hw : (e.cleared p).words = Function.update e.words p fun _ => 0 := words_cleared hp rfl
  rw [hw, Function.update_of_ne hsp]

end

/-! ## the new tables -/

/-- the directory of GiB `i` -/
def dirPage (i : Nat) : Nat := ALLOC_PAGE_LO + 0x1000 * (i + 1)

/-- `l` pages of `alloc_page_lo` are in use, and the first `n` entries for pages are written -/
structure IdentityBuilt (mem : PhysMem) (root l n : Nat) : Prop where
  count : n ≤ 512 * (l - 1)
  few : l ≤ 5
  top : ∀ i : Fin 512, mem root i = if i = 0 ∧ 0 < l then entryTo ALLOC_PAGE_LO 3 else 0
  dir : 0 < l → ∀ i : Fin 512, mem ALLOC_PAGE_LO i = if i + 1 < l then entryTo (dirPage i) 3 else 0
  page : ∀ i j : Fin 512, i * 512 + j < n → mem (dirPage i) j = entryTo ((i * 512 + j) * 0x200000) 0x83

/-- where the tables lie: those of `bootstrap_paging` at `boot`, and the new top table at `root` -/
structure Placed (boot root : Nat) : Prop where
  boot_aligned : boot % 4096 = 0
  boot_end : boot + 0x3000 ≤ ALLOC_PAGE_LO
  root_aligned : root % 4096 = 0
  high : LOMEM_END ≤ root
  low : root + 4096 ≤ 2^30

/-- the loader while it makes the tables, behind `m₀` -/
structure Building (boot root : Nat) (m₀ : Loader) (l n : Nat) (e : EarlyLoader) : Prop where
  built : IdentityBuilt e.words root l n
  cr3 : e.cr3 = root
  memFree : e.memFree = m₀.memFree
  initram : e.initram = m₀.initram
  page : e.page = ALLOC_PAGE_LO + 0x1000 * l
  others : ∀ a, a < ALLOC_PAGE_LO ∨ ALLOC_PAGE_LO + 0x5000 ≤ a → a / 4096 * 4096 ≠ root → e.mem a = m₀.mem a
  cpu : (e.cpuCr3 = boot ∧ e.Sees false (boot + 0x1000) (boot + 0x2000)) ∨ (e.cpuCr3 = root ∧ 512 ≤ n)

/-- the entry for a new table -/
theorem tableOf_entryTo {p : Nat} (hp : p % 4096 = 0) (hlt : p < 2^47) : tableOf (entryTo p 3) = p ∧ entryTo p 3 ≠ 0 := by
  obtain ⟨h, hframe⟩ := @loaderEntry _ hp hlt 3 rfl rfl (by decide)
  refine ⟨h.table.trans hframe, fun h0 => ?_⟩
  have hpres := h.present
  unfold entryTo at h0
  rw [h0] at hpres
  cases hpres

section
variable {e : EarlyLoader} {write : Bool} {pdp pd t : Nat} {i : Fin 512}

/-- the loader after `tableAt` has made a table -/
def EarlyLoader.withTable (e : EarlyLoader) (t : Nat) (i : Fin 512) : EarlyLoader :=
  (EarlyLoader.cleared { e with page := e.page + PAGESIZE } e.page).put t i (entryTo e.page 3)

theorem withTable_words (ht : t % 4096 = 0) (hp : e.page % 4096 = 0) : (e.withTable t i).words =
    Radix.setWord (Function.update e.words e.page fun _ => 0) t i (entryTo e.page 3) := by
  have hw : (EarlyLoader.cleared { e with page := e.page + PAGESIZE } e.page).words =
      Function.update e.words e.page fun _ => 0 := words_cleared hp rfl
  rw [← hw]
  exact words_setWord ht i _

theorem withTable_mem (ht : t % 4096 = 0) (hp : e.page % 4096 = 0) {a : Nat} (hat : a / 4096 * 4096 ≠ t)
    (hap : a / 4096 * 4096 ≠ e.page) : (e.withTable t i).mem a = e.mem a := by
  refine (setWord_mem (m := (EarlyLoader.cleared { e with page := e.page + PAGESIZE } e.page).toLoader)
    ht i _ hat).trans ?_
  show store e.mem e.page (List.replicate PAGESIZE 0) a = _
  have hlen : (List.replicate PAGESIZE (0 : UInt8)).length = 4096 := List.length_replicate
  rcases Nat.lt_or_ge a e.page with hlt | hge
  · exact store_of_lt _ _ hlt
  · exact store_of_ge _ _ (by omega)

theorem tableAt_made (h : e.Sees write pdp pd) (ht : t % 4096 = 0) (hlt : t + 4096 ≤ 2^30) (h0 : e.words t i = 0)
    (hp : e.page % 4096 = 0) (hplt : e.page + 4096 ≤ 2^30) (hfresh : ∀ j, ¬ Used e.cpuCr3 pdp pd e.page j)
    (hi : ¬ Used e.cpuCr3 pdp pd t i) :
    e.tableAt t i = .ok (e.page, e.withTable t i) ∧ (e.withTable t i).Sees write pdp pd := by
  have hstep : ({ e with page := e.page + PAGESIZE } : EarlyLoader).Sees write pdp pd := h
  obtain ⟨hzero, hsees⟩ := Sees.zeroPage hstep hp hplt hfresh
  have hmod : (e.page + PAGESIZE) % 2^64 = e.page + PAGESIZE := Nat.mod_eq_of_lt (by
    unfold PAGESIZE
    omega)
  have hlo : e.allocPageLo = .ok (e.page, EarlyLoader.cleared { e with page := e.page + PAGESIZE } e.page) := by
    unfold EarlyLoader.allocPageLo
    rw [hmod]
    dsimp only
    rw [hzero]
    rfl
  have hwrite := Sees.write64 hsees hlt i (entryTo e.page 3)
  refine ⟨?_, Sees.put hsees ht _ hi⟩
  unfold EarlyLoader.tableAt
  rw [Sees.read64 h ht hlt, h0, ok_then, if_pos rfl, hlo, ok_then]
  unfold entryTo at hwrite
  dsimp only
  rw [hwrite, ok_then]
  show Except.ok (tableOf (entryTo e.page 3), e.withTable t i) = _
  rw [(tableOf_entryTo hp (by omega)).1]

theorem tableAt_found (h : e.Sees write pdp pd) (ht : t % 4096 = 0) (hlt : t + 4096 ≤ 2^30) {p : Nat}
    (hp : p % 4096 = 0) (hplt : p < 2^47) (hw : e.words t i = entryTo p 3) : e.tableAt t i = .ok (p, e) := by
  obtain ⟨htable, hne⟩ := tableOf_entryTo hp hplt
  unfold EarlyLoader.tableAt
  rw [Sees.read64 h ht hlt, hw, ok_then, if_neg hne]
  show Except.ok (tableOf (entryTo p 3), e) = _
  rw [htable]

end

section
variable {boot root l n t : Nat} {m₀ : Loader} {e : EarlyLoader}

/-- the words of the tables that are in force -/
theorem Building.sees (h : Building boot root m₀ l n e) (hp : Placed boot root) :
    ∃ write pdp pd, e.Sees write pdp pd ∧ ∀ t i, Used e.cpuCr3 pdp pd t i →
      t < ALLOC_PAGE_LO ∨ 512 ≤ n ∧ ((t = root ∨ t = ALLOC_PAGE_LO) ∧ i = 0 ∨ t = dirPage 0) := by
  have hend := hp.boot_end
  rcases h.cpu with ⟨hcpu, hsees⟩ | ⟨hcpu, hn⟩
  · refine ⟨false, _, _, hsees, fun t i hu => .inl ?_⟩
    rw [hcpu] at hu
    rcases hu with ⟨rfl | rfl, -⟩ | rfl <;> omega
  · have hcount := h.built.count
    have hlo : ALLOC_PAGE_LO % 4096 = 0 := rfl
    have hdir : dirPage 0 % 4096 = 0 := rfl
    refine ⟨true, ALLOC_PAGE_LO, dirPage 0, ⟨⟨hlo, by decide⟩, fun _ _ => ⟨hdir, by decide⟩, ?_, fun i hi => ?_,
      fun i hi j => ?_⟩, fun t i hu => .inr ⟨hn, ?_⟩⟩
    · rw [hcpu, h.built.top 0, if_pos ⟨rfl, by omega⟩]
      rfl
    · obtain rfl : i = 0 := Fin.ext (by simpa using hi)
      have h0 : (0 : Fin 512).val = 0 := rfl
      rw [h.built.dir (by omega) 0, if_pos (by omega)]
      rfl
    · obtain rfl : i = 0 := Fin.ext (by simpa using hi)
      have h0 : (0 : Fin 512).val = 0 := rfl
      exact h.built.page 0 j (by omega)
    · rw [hcpu] at hu
      exact hu

theorem dirPage_mod (i : Nat) : dirPage i % 4096 = 0 := by
  unfold dirPage ALLOC_PAGE_LO
  omega

/-- a new table behind entry `i` of `t`: what is left to show is what it does to the words -/
theorem Building.made (h : Building boot root m₀ l n e) (hp : Placed boot root) (hl : l ≤ 4) (ht : t % 4096 = 0)
    (hlt : t + 4096 ≤ 2^30) {i : Fin 512} (h0 : e.words t i = 0) (ht' : t = root ∨ t = ALLOC_PAGE_LO)
    (hnew : 512 ≤ n → t = ALLOC_PAGE_LO ∧ i ≠ 0)
    (hbuilt : IdentityBuilt (Radix.setWord (Function.update e.words (ALLOC_PAGE_LO + 0x1000 * l) fun _ => 0) t i
      (entryTo (ALLOC_PAGE_LO + 0x1000 * l) 3)) root (l + 1) n) :
    ∃ e', e.tableAt t i = .ok (ALLOC_PAGE_LO + 0x1000 * l, e') ∧ Building boot root m₀ (l + 1) n e' := by
  obtain ⟨write, pdp, pd, hsees, hused⟩ := h.sees hp
  have hhigh := hp.high
  have hcount := h.built.count
  have hlow := hp.low
  have hend := hp.boot_end
  unfold LOMEM_END at hhigh
  have hpage : e.page % 4096 = 0 := by
    rw [h.page]
    unfold ALLOC_PAGE_LO
    omega
  have hfresh : ∀ j, ¬ Used e.cpuCr3 pdp pd e.page j := fun j hj => by
    have hu := hused _ j hj
    rw [h.page] at hu
    unfold dirPage ALLOC_PAGE_LO at hu
    omega
  have hword : ¬ Used e.cpuCr3 pdp pd t i := fun hj => by
    rcases hused t i hj with hlo | ⟨hn, ⟨-, hi⟩ | hd⟩
    · unfold ALLOC_PAGE_LO at hlo ht'
      omega
    · exact (hnew hn).2 hi
    · have htl := (hnew hn).1
      rw [htl] at hd
      cases hd
  obtain ⟨hrun, hsees'⟩ := tableAt_made hsees ht hlt h0 hpage (by
    rw [h.page]
    unfold ALLOC_PAGE_LO
    omega) hfresh hword
  rw [h.page] at hrun
  refine ⟨e.withTable t i, hrun, ?_, h.cr3, h.memFree, h.initram, ?_, fun a ha har => ?_, ?_⟩
  · rw [withTable_words ht hpage, h.page]
    exact hbuilt
  · show e.page + PAGESIZE = _
    rw [h.page]
    unfold PAGESIZE
    omega
  · have hother : a / 4096 * 4096 ≠ t ∧ a / 4096 * 4096 ≠ e.page := by
      rw [h.page]
      unfold ALLOC_PAGE_LO at ha ht' ⊢
      omega
    rw [withTable_mem ht hpage hother.1 hother.2]
    exact h.others a ha har
  · -- the tables of `bootstrap_paging` are not written to
    rcases h.cpu with ⟨hcpu, hboot⟩ | hcpu
    · refine .inl ⟨hcpu, LowMap.frame hboot fun s j hs => ?_⟩
      have hlo : s < ALLOC_PAGE_LO := by
        have hs' : Used e.cpuCr3 _ _ s j := hs
        rw [hcpu] at hs'
        rcases hs' with ⟨rfl | rfl, -⟩ | rfl <;> omega
      rw [withTable_words ht hpage, setWord_node_ne _ _ _ (by unfold ALLOC_PAGE_LO at hlo ht'; omega),
        Function.update_of_ne (by rw [h.page]; omega)]
    · exact .inr hcpu

/-- **The table behind the first entry.** -/
theorem Building.tableTop (h : Building boot root m₀ l n e) (hp : Placed boot root) :
    ∃ e', e.tableAt e.cr3 0 = .ok (ALLOC_PAGE_LO, e') ∧ Building boot root m₀ (max l 1) n e' := by
  have hhigh := hp.high
  have hcount := h.built.count
  unfold LOMEM_END at hhigh
  have htop := h.built.top 0
  rw [h.cr3]
  rcases Nat.eq_zero_or_pos l with rfl | hl
  · rw [if_neg (by omega)] at htop
    refine h.made hp (by decide) hp.root_aligned hp.low htop (.inl rfl) (fun hn => by omega) ?_
    have hne : root ≠ ALLOC_PAGE_LO := by
      unfold ALLOC_PAGE_LO
      omega
    refine ⟨hcount, by decide, fun i => ?_, fun _ i => ?_, fun i j hij => by omega⟩
    · by_cases hi : i = 0
      · rw [hi, setWord_same, if_pos ⟨rfl, by decide⟩]
      · rw [setWord_of_ne _ _ fun hst => hi hst.2, Function.update_of_ne hne, h.built.top i, if_neg (by omega),
          if_neg fun hc => hi hc.1]
    · rw [setWord_node_ne _ _ _ hne.symm, if_neg (by omega)]
      exact congrFun (Function.update_self ALLOC_PAGE_LO (fun _ => (0 : BitVec 64)) e.words) i
  · rw [if_pos ⟨rfl, hl⟩] at htop
    obtain ⟨write, pdp, pd, hsees, -⟩ := h.sees hp
    refine ⟨e, tableAt_found hsees hp.root_aligned hp.low rfl (by decide) htop, ?_⟩
    rwa [Nat.max_eq_left hl]

/-- **The directory behind entry `i` of the second table.** -/
theorem Building.tableDir (h : Building boot root m₀ l n e) (hp : Placed boot root) {i : Fin 512} (hi : i < 4)
    (hl : i + 1 ≤ l) (hn : 512 ≤ n → i ≠ 0) :
    ∃ e', e.tableAt ALLOC_PAGE_LO i = .ok (dirPage i, e') ∧ Building boot root m₀ (max l (i + 2)) n e' := by
  have hhigh := hp.high
  have hcount := h.built.count
  have hlt : i.val < 4 := hi
  have hlow : ALLOC_PAGE_LO % 4096 = 0 ∧ ALLOC_PAGE_LO + 4096 ≤ 2^30 := by decide
  have hdir := h.built.dir (by omega) i
  unfold LOMEM_END at hhigh
  by_cases hlt' : i + 1 < l
  · rw [if_pos hlt'] at hdir
    obtain ⟨write, pdp, pd, hsees, -⟩ := h.sees hp
    refine ⟨e, tableAt_found hsees hlow.1 hlow.2 (dirPage_mod i) ?_ hdir, ?_⟩
    · unfold dirPage ALLOC_PAGE_LO
      omega
    · rwa [Nat.max_eq_left hlt']
  · rw [if_neg hlt'] at hdir
    obtain rfl : l = i + 1 := by omega
    have hroot : root ≠ ALLOC_PAGE_LO ∧ root ≠ dirPage i := by
      unfold dirPage ALLOC_PAGE_LO
      omega
    have hne : ALLOC_PAGE_LO ≠ dirPage i := by
      unfold dirPage
      omega
    rw [Nat.max_eq_right (Nat.le_succ _)]
    refine h.made hp hlt hlow.1 hlow.2 hdir (.inr rfl) (fun hn' => ⟨rfl, hn hn'⟩) ?_
    show IdentityBuilt (Radix.setWord (Function.update e.words (dirPage i) _) _ i (entryTo (dirPage i) 3)) root _ n
    refine ⟨by omega, by omega, fun j => ?_, fun _ j => ?_, fun j k hjk => ?_⟩
    · rw [setWord_node_ne _ _ _ hroot.1, Function.update_of_ne hroot.2, h.built.top j]
      refine if_congr (and_congr_right fun _ => ?_) rfl rfl
      omega
    · by_cases hj : j = i
      · rw [hj, setWord_same, if_pos (Nat.lt_succ_self _)]
      · have hji : j.val ≠ i.val := fun hc => hj (Fin.ext hc)
        rw [setWord_of_ne _ _ fun hst => hj hst.2, Function.update_of_ne hne, h.built.dir (by omega) j]
        refine if_congr ?_ rfl rfl
        omega
    · have hne' : dirPage j ≠ ALLOC_PAGE_LO ∧ dirPage j ≠ dirPage i := by
        unfold dirPage
        omega
      rw [setWord_node_ne _ _ _ hne'.1, Function.update_of_ne hne'.2]
      exact h.built.page j k hjk

/-- **One entry for a page.** -/
theorem Building.writePage (h : Building boot root m₀ l n e) (hp : Placed boot root) (hl : n / 512 + 1 < l) :
    ∃ e', e.write64 (dirPage (n / 512) + 8 * (n % 512)) (entryTo (n * 0x200000) 0x83) = .ok e' ∧
      Building boot root m₀ l (n + 1) e' := by
  obtain ⟨write, pdp, pd, hsees, hused⟩ := h.sees hp
  have hhigh := hp.high
  have hend := hp.boot_end
  have hcount := h.built.count
  have hfew := h.built.few
  unfold LOMEM_END at hhigh
  obtain ⟨t, ht⟩ : ∃ t, t = dirPage (n / 512) := ⟨_, rfl⟩
  have hal : t % 4096 = 0 := ht ▸ dirPage_mod _
  have htlo : ALLOC_PAGE_LO + 0x1000 ≤ t ∧ t < ALLOC_PAGE_LO + 0x5000 := by
    rw [ht]
    unfold dirPage
    omega
  have hword : ¬ Used e.cpuCr3 pdp pd t ⟨n % 512, Nat.mod_lt _ (by decide)⟩ := fun hu => by
    rcases hused t _ hu with hlo | ⟨hn, ⟨hd, -⟩ | hd⟩
    · omega
    · unfold ALLOC_PAGE_LO at htlo hd
      omega
    · rw [ht] at hd
      unfold dirPage at hd
      omega
  have hwrite := Sees.write64 hsees (t := t) (by unfold ALLOC_PAGE_LO at htlo; omega)
    ⟨n % 512, Nat.mod_lt _ (by decide)⟩ (entryTo (n * 0x200000) 0x83)
  have hwords := words_setWord (m := e.toLoader) hal ⟨n % 512, Nat.mod_lt _ (by decide)⟩ (entryTo (n * 0x200000) 0x83)
  rw [← ht]
  refine ⟨_, hwrite, ?_, h.cr3, h.memFree, h.initram, h.page, fun a ha har => ?_, ?_⟩
  · show IdentityBuilt (e.toLoader.setWord t _ _).words root l (n + 1)
    rw [hwords]
    refine ⟨by omega, hfew, fun j => ?_, fun hpos j => ?_, fun j k hjk => ?_⟩
    · rw [setWord_node_ne _ _ _ (by unfold ALLOC_PAGE_LO at htlo; omega)]
      exact h.built.top j
    · rw [setWord_node_ne _ _ _ (by omega)]
      exact h.built.dir hpos j
    · by_cases hlast : j.val * 512 + k.val = n
      · have hj : dirPage j = t := by
          rw [ht]
          congr 1
          omega
        have hk : k = ⟨n % 512, Nat.mod_lt _ (by decide)⟩ := Fin.ext (by dsimp only; omega)
        rw [hj, hk, setWord_same]
        congr 2
        dsimp only
        omega
      · rw [setWord_of_ne _ _ fun hst => ?_]
        · exact h.built.page j k (by omega)
        · have hd := hst.1.trans ht
          have hk := congrArg Fin.val hst.2
          unfold dirPage at hd
          dsimp only at hk
          omega
  · rw [← h.others a ha har]
    exact setWord_mem (m := e.toLoader) hal _ _ (by unfold ALLOC_PAGE_LO at ha htlo; omega)
  · rcases h.cpu with ⟨hcpu, hboot⟩ | ⟨hcpu, hn⟩
    · refine .inl ⟨hcpu, Sees.put hboot hal _ fun hs => ?_⟩
      rw [hcpu] at hs
      rcases hs with ⟨rfl | rfl, -⟩ | rfl <;> omega
    · exact .inr ⟨hcpu, Nat.le_succ_of_le hn⟩

/-- number of pages of `alloc_page_lo` behind `n` entries -/
def loPages (n : Nat) : Nat := if n = 0 then 0 else (n + 511) / 512 + 1

/-- **One call of `map_identity_2mib`.** -/
theorem mapIdentity2mib_spec (h : Building boot root m₀ (loPages n) n e) (hp : Placed boot root) (hn : n < 2048) :
    ∃ e', e.mapIdentity2mib (n / 512) (n % 512) = .ok e' ∧ Building boot root m₀ (loPages (n + 1)) (n + 1) e' := by
  have hlo : loPages n = 0 ∧ n = 0 ∨ loPages n = (n + 511) / 512 + 1 ∧ n ≠ 0 := by
    unfold loPages
    split_ifs with h0
    · exact .inl ⟨rfl, h0⟩
    · exact .inr ⟨rfl, h0⟩
  obtain ⟨e₁, htop, h₁⟩ := h.tableTop hp
  obtain ⟨e₂, hdir, h₂⟩ := h₁.tableDir hp (i := ⟨n / 512, by omega⟩) (show n / 512 < 4 by omega)
    (show n / 512 + 1 ≤ _ by omega) (fun hbig h0 => by
      have hval := congrArg Fin.val h0
      have hz : (0 : Fin 512).val = 0 := rfl
      dsimp only at hval
      omega)
  have hnext : max (max (loPages n) 1) (n / 512 + 2) = loPages (n + 1) := by
    have hstep : loPages (n + 1) = (n + 1 + 511) / 512 + 1 := if_neg (Nat.succ_ne_zero n)
    omega
  obtain ⟨e₃, hwrite, h₃⟩ := h₂.writePage hp (show n / 512 + 1 < _ by dsimp only; omega)
  refine ⟨e₃, ?_, hnext ▸ h₃⟩
  have hentry : (n / 512 * 0x200 + n % 512) * 0x200000 = n * 0x200000 := by omega
  have htop' : e.tableAt e.cr3 0 = .ok (ALLOC_PAGE_LO, e₁) := htop
  have hdir' : e₁.tableAt ALLOC_PAGE_LO (n / 512) = .ok (dirPage (n / 512), e₂) := hdir
  unfold EarlyLoader.mapIdentity2mib
  rw [htop', ok_then]
  dsimp only
  rw [hdir', ok_then]
  dsimp only
  rw [hentry]
  exact hwrite

/-- **One GiB**, with the new tables in force behind it -/
theorem identity_row {i : Nat} (h : Building boot root m₀ (loPages (512 * i)) (512 * i) e) (hp : Placed boot root)
    (hi : i < 4) : ∃ e', e.mapGib i = .ok e' ∧
      Building boot root m₀ (loPages (512 * (i + 1))) (512 * (i + 1)) e' ∧ e'.cpuCr3 = root := by
  obtain ⟨e₁, hrun, h₁⟩ := foldlM_range
    (I := fun k e => Building boot root m₀ (loPages (512 * i + k)) (512 * i + k) e) 0x200 (fun k hk e he => by
      obtain ⟨e', hstep, h'⟩ := mapIdentity2mib_spec he hp (by omega)
      have hdiv : (512 * i + k) / 512 = i := by omega
      have hmod : (512 * i + k) % 512 = k := by omega
      rw [hdiv, hmod] at hstep
      exact ⟨e', hstep, h'⟩) h
  have hnext : 512 * i + 512 = 512 * (i + 1) := by omega
  rw [hnext] at h₁
  unfold EarlyLoader.mapGib
  rw [hrun, ok_then]
  exact ⟨e₁.loadCr3, rfl, ⟨h₁.built, h₁.cr3, h₁.memFree, h₁.initram, h₁.page, h₁.others,
    .inr ⟨h₁.cr3, by omega⟩⟩, h₁.cr3⟩

end

/-! ## the whole map -/

/-- the first entry with memory starts below 1 GiB, where `bootstrap_paging` maps it -/
def FirstPage (memFree : List BootMemRegion) : Prop :=
  ∃ r, (memFree.take FREE_SCAN).find? (fun r => r.size ≠ 0) = some r ∧ r.base < 2^30

/-- the loader behind `bootstrap_paging` -/
structure Bootstrapped (boot : Nat) (e : EarlyLoader) : Prop where
  aligned : boot % 4096 = 0
  behind : boot + 0x3000 ≤ ALLOC_PAGE_LO
  mem : ∃ mem, e.mem = bootstrapPaging boot mem
  cpu : e.cpuCr3 = boot
  page : e.page = ALLOC_PAGE_LO

/-- the bases are addresses, of entries without memory too -/
def BasesOk (memFree : List BootMemRegion) : Prop := ∀ f ∈ memFree, f.base ≤ 2^64

/-- what `alloc_page_hi` leaves when it looks at `n` entries: as many entries, with the later ones unchanged -/
structure EntriesKept (n : Nat) (memFree memFree' : List BootMemRegion) : Prop where
  bases : BasesOk memFree → BasesOk memFree'
  length : memFree'.length = memFree.length
  rest : memFree'.drop n = memFree.drop n

theorem EntriesKept.refl (n : Nat) (memFree : List BootMemRegion) : EntriesKept n memFree memFree :=
  ⟨fun h => h, rfl, rfl⟩

theorem EntriesKept.trans {n : Nat} {memFree memFree₁ memFree' : List BootMemRegion}
    (g : EntriesKept n memFree memFree₁) (g' : EntriesKept n memFree₁ memFree') : EntriesKept n memFree memFree' :=
  ⟨fun h => g'.bases (g.bases h), g'.length.trans g.length, g'.rest.trans g.rest⟩

theorem takeHi_kept {n p : Nat} {memFree memFree' : List BootMemRegion} (e : takeHi n memFree = some (p, memFree')) :
    EntriesKept n memFree memFree' := by
  induction n generalizing memFree memFree' with
  | zero => cases e
  | succ n ih =>
    cases memFree with
    | nil => cases e
    | cons reg rest =>
      rw [FuseeOS.takeHi] at e
      by_cases h0 : reg.size ≠ 0
      · rw [if_pos h0] at e
        cases e
        refine ⟨fun h => ?_, ?_, ?_⟩
        · exact List.forall_mem_cons.mpr ⟨Nat.le_of_lt (Nat.mod_lt _ (by decide)), (List.forall_mem_cons.mp h).2⟩
        · rw [List.length_cons, List.length_cons]
        · rw [List.drop_succ_cons, List.drop_succ_cons]
      · rw [if_neg h0] at e
        obtain ⟨⟨base, rest'⟩, hrun, he⟩ := Option.map_eq_some_iff.mp e
        cases he
        have g := ih hrun
        refine ⟨fun h => ?_, congrArg Nat.succ g.length, g.rest⟩
        obtain ⟨hreg, hrest⟩ := List.forall_mem_cons.mp h
        exact List.forall_mem_cons.mpr ⟨hreg, g.bases hrest⟩

/-- and behind `memory_detect` -/
structure EarlyStart (us : List BootMemRegion) (boot : Nat) (e : EarlyLoader) : Prop extends Bootstrapped boot e where
  free : FreePages us e.memFree
  bases : BasesOk e.memFree

/-- what `memory_identity_map` has made of `e` -/
structure IdentityMapped (us : List BootMemRegion) (e e' : EarlyLoader) : Prop where
  inv : LoaderInv us e'.toLoader
  built : IdentityBuilt e'.words e'.cr3 5 2048
  root : LOMEM_END ≤ e'.cr3
  below : e'.cr3 < 2^30
  cpu : e'.cpuCr3 = e'.cr3
  /-- every address below 4 GiB is found in place, for reading and writing -/
  low : ∀ va < IDENTITY_END, translate e'.words e'.cr3 va = some ⟨va, true, false, false⟩
  /-- nothing else is mapped -/
  high : ∀ va, IDENTITY_END ≤ va → va < 2^64 → translate e'.words e'.cr3 va = none
  initram : e'.initram = e.initram
  /-- only the five pages of `alloc_page_lo` and the top table are written to -/
  others : ∀ a, a < ALLOC_PAGE_LO ∨ ALLOC_PAGE_LO + 0x5000 ≤ a → a / 4096 * 4096 ≠ e'.cr3 → e'.mem a = e.mem a
  fresh : ∃ f ∈ e.memFree, f.Has e'.cr3
  room : e.room ≤ e'.room + 1
  bases : BasesOk e'.memFree
  entries : EntriesKept FREE_SCAN e.memFree e'.memFree

/-- the bootloader with the tables at `pml4` in its memory -/
def earlyAt (pml4 : Nat) (memFree : List BootMemRegion) (mem : Nat → UInt8) : EarlyLoader where
  mem := mem
  memFree := memFree
  cr3 := 0
  initram := 0
  cpuCr3 := pml4
  page := ALLOC_PAGE_LO

theorem earlyAt_bootstrapped {pml4 : Nat} (hal : pml4 % 4096 = 0) (hlow : pml4 + 0x3000 ≤ ALLOC_PAGE_LO)
    {memFree : List BootMemRegion} {mem mem' : Nat → UInt8} (h : mem' = bootstrapPaging pml4 mem) :
    Bootstrapped pml4 (earlyAt pml4 memFree mem') := ⟨hal, hlow, ⟨mem, h⟩, rfl, rfl⟩

section
variable {mem : PhysMem} {root : Nat}

theorem next_entryTo {p : Nat} (hp : p % 4096 = 0) (hlt : p < 2^47) : next (entryTo p 3) = some p := by
  obtain ⟨h, hframe⟩ := @loaderEntry _ hp hlt 3 rfl rfl (by decide)
  exact h.next.trans (congrArg some hframe)

theorem next_page {p : Nat} (hp : p % 4096 = 0) (hlt : p < 2^47) : next (entryTo p 0x83) = none := by
  obtain ⟨-, hlarge, -⟩ := @page_entryTo _ true hp hlt
  unfold FuseeOS.next
  rw [show large (entryTo p 0x83) = true from hlarge, Bool.not_true, Bool.and_false]
  rfl

theorem dirPage_lt {i : Nat} (hi : i < 4) : dirPage i < LOMEM_END := by
  unfold dirPage ALLOC_PAGE_LO LOMEM_END
  omega

/-- the paths of the finished tables -/
theorem IdentityBuilt.nodes (h : IdentityBuilt mem root 5 2048) {p : List (Fin 512)} {t : Nat}
    (ht : nodeAt next mem root p = some t) : p = [] ∧ t = root ∨ p = [0] ∧ t = ALLOC_PAGE_LO ∨
      ∃ i : Fin 512, i.val < 4 ∧ p = [0, i] ∧ t = dirPage i := by
  cases p with
  | nil => exact .inl ⟨rfl, (Option.some.inj ht).symm⟩
  | cons a p =>
    unfold Radix.nodeAt at ht
    rw [h.top a] at ht
    by_cases ha : a = 0
    · rw [if_pos ⟨ha, by decide⟩, next_entryTo rfl (by decide), Option.bind_some] at ht
      cases p with
      | nil => exact .inr (.inl ⟨by rw [ha], (Option.some.inj ht).symm⟩)
      | cons i p =>
        unfold Radix.nodeAt at ht
        rw [h.dir (by decide) i] at ht
        by_cases hi : i.val + 1 < 5
        · have hdir := dirPage_lt (Nat.lt_of_succ_lt_succ hi)
          unfold LOMEM_END at hdir
          rw [if_pos hi, next_entryTo (dirPage_mod i) (by omega), Option.bind_some] at ht
          obtain ⟨rfl, htd⟩ := nodeAt_leaf (fun j => by
            have hj := j.isLt
            rw [h.page i j (by omega)]
            exact next_page (by omega) (by omega)) ht
          exact .inr (.inr ⟨i, Nat.lt_of_succ_lt_succ hi, by rw [ha], htd.symm⟩)
        · rw [if_neg hi, next_zero] at ht
          cases ht
    · rw [if_neg fun hc => ha hc.1, next_zero] at ht
      cases ht

/-- they are a tree -/
theorem IdentityBuilt.proper (h : IdentityBuilt mem root 5 2048) (hroot : LOMEM_END ≤ root) :
    Proper next mem root 4 := by
  have hlo : ALLOC_PAGE_LO = 0x100000 := rfl
  have hhi : LOMEM_END = 0x1000000 := rfl
  have hdir (i : Nat) : dirPage i = 0x100000 + 0x1000 * (i + 1) := rfl
  intro p q t _ _ hp hq
  rcases h.nodes hp with ⟨rfl, hpt⟩ | ⟨rfl, hpt⟩ | ⟨i, hi, rfl, hpt⟩
  · rcases h.nodes hq with ⟨rfl, -⟩ | ⟨rfl, hqt⟩ | ⟨j, hj, rfl, hqt⟩
    · rfl
    · omega
    · rw [hdir] at hqt
      omega
  · rcases h.nodes hq with ⟨rfl, hqt⟩ | ⟨rfl, -⟩ | ⟨j, hj, rfl, hqt⟩
    · omega
    · rfl
    · rw [hdir] at hqt
      omega
  · rw [hdir] at hpt
    rcases h.nodes hq with ⟨rfl, hqt⟩ | ⟨rfl, hqt⟩ | ⟨j, hj, rfl, hqt⟩
    · omega
    · omega
    · rw [hdir] at hqt
      have hij : i = j := Fin.ext (by omega)
      rw [hij]

/-- they map the first four GiB -/
theorem IdentityBuilt.lowMap (h : IdentityBuilt mem root 5 2048) :
    LowMap mem true root ALLOC_PAGE_LO dirPage 4 ∧ LowOnly mem root ALLOC_PAGE_LO 4 512 := by
  refine ⟨⟨by decide, fun i hi => ⟨dirPage_mod i, lt_trans (dirPage_lt hi) (by decide)⟩, ?_, fun i hi => ?_,
    fun i hi j => ?_⟩, fun i hi _ => ?_, fun i hi => ?_⟩
  · rw [h.top 0, if_pos ⟨rfl, by decide⟩]
    rfl
  · rw [h.dir (by decide) i, if_pos (by omega)]
    rfl
  · exact h.page i j (by omega)
  · rw [h.top i, if_neg fun hc => hi hc.1]
  · rw [h.dir (by decide) i, if_neg (by omega)]

end

section
variable {us l t : List BootMemRegion} {boot : Nat} {e e' : EarlyLoader} {r : BootMemRegion}

/-- behind `alloc_page_hi`, with the new top table -/
def EarlyLoader.rooted (e : EarlyLoader) (root : Nat) (memFree : List BootMemRegion) : EarlyLoader :=
  { EarlyLoader.cleared { e with memFree := memFree } root with cr3 := root }

theorem EarlyStart.placed (h : EarlyStart us boot e) (hl : e.memFree = l ++ r :: t) (h0 : r.size ≠ 0)
    (hlow : r.base < 2^30) : Placed boot r.base := by
  have htail := h.free.tail r (hl ▸ List.mem_append_right _ List.mem_cons_self) h0
  have hal := htail.aligned
  exact ⟨h.aligned, h.behind, hal, htail.low, by omega⟩

/-- **The top table.** -/
theorem EarlyStart.first (h : EarlyStart us boot e) (hl : e.memFree = l ++ r :: t) (h0 : r.size ≠ 0)
    (hlow : r.base < 2^30) (memFree : List BootMemRegion) :
    EarlyLoader.zeroPage { e with memFree := memFree } r.base =
        .ok (EarlyLoader.cleared { e with memFree := memFree } r.base) ∧
      Building boot r.base (e.rooted r.base memFree).toLoader (loPages 0) 0 (e.rooted r.base memFree) := by
  have hp := h.placed hl h0 hlow
  have hhigh := hp.high
  have hbehind := h.behind
  unfold ALLOC_PAGE_LO at hbehind
  unfold LOMEM_END at hhigh
  obtain ⟨mem, hmem⟩ := h.mem
  have hboot : ({ e with memFree := memFree } : EarlyLoader).Sees false (boot + 0x1000) (boot + 0x2000) := by
    have hmap := bootstrap_lowMap boot h.aligned h.behind mem
      (m := ({ e with memFree := memFree } : EarlyLoader).toLoader) hmem
    rw [← h.cpu] at hmap ⊢
    exact hmap
  obtain ⟨hrun, hsees⟩ := Sees.zeroPage hboot hp.root_aligned hp.low fun i hu => by
    have hu' : Used e.cpuCr3 (boot + 0x1000) (boot + 0x2000) r.base i := hu
    rw [h.cpu] at hu'
    rcases hu' with ⟨heq | heq, -⟩ | heq <;> omega
  have hwords : (EarlyLoader.cleared { e with memFree := memFree } r.base).words r.base = fun _ => 0 := by
    have hw := @words_cleared ({ e with memFree := memFree } : EarlyLoader).toLoader
      (EarlyLoader.cleared { e with memFree := memFree } r.base).toLoader _ hp.root_aligned rfl
    rw [hw, Function.update_self]
  refine ⟨hrun, ⟨Nat.zero_le _, by decide, fun i => ?_, fun hc => absurd hc (Nat.lt_irrefl 0),
    fun i j hij => absurd hij (Nat.not_lt_zero _)⟩, rfl, rfl, rfl, h.page, fun a _ _ => rfl, .inl ⟨h.cpu, hsees⟩⟩
  rw [if_neg fun hc => Nat.lt_irrefl 0 hc.2]
  exact congrFun hwords i

/-- what the finished tables are good for -/
theorem EarlyStart.finished (h : EarlyStart us boot e) (hl : e.memFree = l ++ r :: t) (h0 : r.size ≠ 0)
    (hlow : r.base < 2^30) (hfind : (e.memFree.take FREE_SCAN).find? (fun r => r.size ≠ 0) = some r)
    (htake : takeHi FREE_SCAN e.memFree = some (r.base, l ++ r.rest PAGESIZE :: t)) (hcpu : e'.cpuCr3 = r.base)
    (g : Building boot r.base (e.rooted r.base (l ++ r.rest PAGESIZE :: t)).toLoader 5 2048 e') :
    IdentityMapped us e e' := by
  have hp := h.placed hl h0 hlow
  have hsplit : FreePages us (l ++ r :: t) := hl ▸ h.free
  have hmem : r ∈ l ++ r :: t := List.mem_append_right _ List.mem_cons_self
  have hfree : FreePages us e'.memFree := by
    rw [g.memFree]
    exact hsplit.take h0
  obtain ⟨hmap, honly⟩ := g.built.lowMap
  have hnodes {p : List (Fin 512)} {s : Nat} (hs : e'.toLoader.nodeAt p = some s) :=
    g.built.nodes (show nodeAt next e'.words r.base p = some s from g.cr3 ▸ hs)
  refine ⟨⟨hfree, ?_, ?_, fun p s _ hs => ?_, fun p s i _ hup hs => ?_⟩, ?_, ?_, g.cr3 ▸ hlow, hcpu.trans g.cr3.symm,
    fun va hva => ?_, fun va hva hlt => ?_, g.initram, fun a ha har => ?_, ?_, ?_, ?_, ?_⟩
  · rw [g.cr3]
    exact hp.root_aligned
  · rw [g.cr3]
    exact g.built.proper hp.high
  · -- the top table is no longer free, and the others are low
    have hlomem {a : Nat} (hfa : e'.toLoader.Free a) : LOMEM_END ≤ a := by
      obtain ⟨f, hf, hfa⟩ := hfa
      have hbase := (hfree.tail f hf fun hz => by
        unfold BootMemRegion.Has at hfa
        omega).low
      exact Nat.le_trans hbase hfa.1
    rcases hnodes hs with ⟨-, rfl⟩ | ⟨-, rfl⟩ | ⟨i, hi, -, rfl⟩
    · intro hfa
      unfold Loader.Free at hfa
      rw [g.memFree] at hfa
      exact (hsplit.taken h0 hfa).2 ⟨Nat.le_refl _, by omega⟩
    · intro hfa
      exact absurd (hlomem hfa) (by decide)
    · intro hfa
      exact absurd (hlomem hfa) (Nat.not_le_of_lt (dirPage_lt hi))
  · obtain ⟨a, ha, hupper⟩ := hup
    rcases hnodes hs with ⟨rfl, rfl⟩ | ⟨rfl, -⟩ | ⟨j, -, rfl, -⟩
    · obtain rfl : i = a := Option.some.inj ha
      refine .inl (honly.top i (fun hi => ?_) i.isLt)
      rw [hi] at hupper
      exact absurd hupper (by decide)
    · obtain rfl : 0 = a := Option.some.inj ha
      exact absurd hupper (by decide)
    · obtain rfl : 0 = a := Option.some.inj ha
      exact absurd hupper (by decide)
  · rw [g.cr3]
    exact g.built
  · rw [g.cr3]
    exact hp.high
  · rw [g.cr3]
    exact hmap.translate (by decide) hva
  · rw [g.cr3]
    exact hmap.translate_none honly hva hlt (Nat.mod_lt _ (by decide))
  · rw [g.cr3] at har
    rw [g.others a ha har]
    show store e.mem r.base (List.replicate PAGESIZE 0) a = e.mem a
    have hal := hp.root_aligned
    have hlen : (List.replicate PAGESIZE (0 : UInt8)).length = 4096 := List.length_replicate
    rcases Nat.lt_or_ge a r.base with hlt | hge
    · exact store_of_lt _ _ hlt
    · exact store_of_ge _ _ (by omega)
  · rw [g.cr3]
    exact ⟨r, hl ▸ hmem, Nat.le_refl _, by omega⟩
  · have hroom : e'.room = roomOf (l ++ r.rest PAGESIZE :: t) := congrArg roomOf g.memFree
    rw [hroom]
    exact room_take hsplit h0 hfind htake
  · rw [g.memFree]
    exact (takeHi_kept htake).bases h.bases
  · rw [g.memFree]
    exact takeHi_kept htake

/-- `memset` faults at an address that is not mapped -/
theorem zeroPage_fault {p : Nat} (h : translate e.words e.cpuCr3 p = none) : e.zeroPage p = .error .fault := by
  show e.clear p (4095 + 1) = _
  unfold EarlyLoader.clear EarlyLoader.addr
  rw [h]
  rfl

/-- the rows, one behind the other -/
theorem identity_rows {root : Nat} {m₀ : Loader} (h : Building boot root m₀ (loPages 0) 0 e)
    (hp : Placed boot root) : ∃ e', (List.range 4).foldlM EarlyLoader.mapGib e = .ok e' ∧
      Building boot root m₀ 5 2048 e' ∧ e'.cpuCr3 = root := by
  obtain ⟨e', hrun, g, hcpu⟩ := @foldlM_range _ _
    (fun i e => Building boot root m₀ (loPages (512 * i)) (512 * i) e ∧ (i ≠ 0 → e.cpuCr3 = root)) EarlyLoader.mapGib 4
    (fun i hi e he => by
      obtain ⟨e', hstep, h', hcpu⟩ := identity_row he.1 hp hi
      exact ⟨e', hstep, h', fun _ => hcpu⟩) _ ⟨h, fun hc => absurd rfl hc⟩
  exact ⟨e', hrun, g, hcpu (by decide)⟩

/-- the first entry with memory decides -/
theorem memoryIdentityMap_cases (h : EarlyStart us boot e) :
    (FirstPage e.memFree ∧ ∃ e', e.memoryIdentityMap = .ok e' ∧ IdentityMapped us e e') ∨
      (¬ FirstPage e.memFree ∧ ∃ s, e.memoryIdentityMap = .error s) := by
  have hrun : e.memoryIdentityMap = (takeHi FREE_SCAN e.memFree).elim (.error .noFrame) fun x =>
      EarlyLoader.zeroPage { e with memFree := x.2 } x.1 >>= fun e =>
        (List.range 4).foldlM EarlyLoader.mapGib { e with cr3 := x.1 } := by
    unfold EarlyLoader.memoryIdentityMap EarlyLoader.allocPageHi
    cases takeHi FREE_SCAN e.memFree with
    | none => rfl
    | some x => simp only [Option.elim_some, bind_assoc, pure_bind]
  rcases takeHi_cases FREE_SCAN e.memFree with ⟨hfind, hnone⟩ | ⟨l, r, t, hl, h0, hfind, htake⟩
  · -- no memory is listed
    rw [hnone] at hrun
    refine .inr ⟨fun hfirst => ?_, .noFrame, hrun⟩
    obtain ⟨r, hr, -⟩ := hfirst
    rw [hfind] at hr
    cases hr
  · rw [htake] at hrun
    dsimp only [Option.elim_some] at hrun
    by_cases hlow : r.base < 2^30
    · obtain ⟨hzero, hstart⟩ := h.first hl h0 hlow (l ++ r.rest PAGESIZE :: t)
      obtain ⟨e', hrows, g, hcpu⟩ := identity_rows hstart (h.placed hl h0 hlow)
      rw [hzero, ok_then] at hrun
      exact .inl ⟨⟨r, hfind, hlow⟩, e', hrun.trans hrows, h.finished hl h0 hlow hfind htake hcpu g⟩
    · -- the top table would lie where nothing is mapped yet
      have htail := h.free.tail r (hl ▸ List.mem_append_right _ List.mem_cons_self) h0
      have hshort := htail.short
      obtain ⟨mem, hmem⟩ := h.mem
      have hmap := bootstrap_lowMap boot h.aligned h.behind mem (m := e.toLoader) hmem
      have hnone := @LowMap.translate_none _ _ _ _ _ _ r.base _ hmap (bootstrap_lowOnly boot h.aligned mem hmem)
        (by omega) (by omega) (Nat.mod_lt _ (by decide))
      rw [zeroPage_fault (e := { e with memFree := l ++ r.rest PAGESIZE :: t }) (h.cpu ▸ hnone)] at hrun
      refine .inr ⟨fun hfirst => ?_, .fault, hrun⟩
      obtain ⟨r', hr', hlow'⟩ := hfirst
      rw [hfind] at hr'
      rw [← Option.some.inj hr'] at hlow'
      exact absurd hlow' hlow

theorem EarlyStart.mapped (h : EarlyStart us boot e) (hrun : e.memoryIdentityMap = .ok e') :
    IdentityMapped us e e' := by
  rcases memoryIdentityMap_cases h with ⟨-, e₁, hrun₁, hid⟩ | ⟨-, s, hrun₁⟩
  · obtain rfl : e₁ = e' := Except.ok.inj (hrun₁.symm.trans hrun)
    exact hid
  · rw [hrun] at hrun₁
    cases hrun₁

/-- **`memory_identity_map` has a result if and only if the first entry with memory starts below 1 GiB**, and
then it has mapped the first four GiB in place, and nothing else. -/
theorem memory_identity_map (h : EarlyStart us boot e) :
    ((∃ e', e.memoryIdentityMap = .ok e') ↔ FirstPage e.memFree) ∧
      ∀ e', e.memoryIdentityMap = .ok e' → IdentityMapped us e e' := by
  refine ⟨?_, fun e' hrun => h.mapped hrun⟩
  rcases memoryIdentityMap_cases h with ⟨hfirst, e', hrun, -⟩ | ⟨hfirst, s, hrun⟩
  · exact iff_of_true ⟨e', hrun⟩ hfirst
  · refine iff_of_false (fun hok => ?_) hfirst
    obtain ⟨e', he'⟩ := hok
    rw [hrun] at he'
    cases he'

end

/-- 16 MiB above the low pages -/
def lowFree : List BootMemRegion := [⟨LOMEM_END, 0x1000000⟩]

def lowStart : EarlyLoader := earlyAt 0x10000 lowFree (bootstrapPaging 0x10000 fun _ => 0)

theorem lowStart_early : EarlyStart lowFree 0x10000 lowStart := by
  refine ⟨earlyAt_bootstrapped (by decide) (by decide) rfl, ⟨⟨fun f hf _ => ?_, List.pairwise_singleton _ _⟩,
    fun f hf => ?_⟩, fun f hf => ?_⟩
  · obtain rfl := List.mem_singleton.mp hf
    exact ⟨Nat.le_refl _, by decide, by decide, _, List.mem_singleton_self _, Nat.le_refl _, rfl⟩
  · obtain rfl := List.mem_singleton.mp hf
    decide
  · obtain rfl := List.mem_singleton.mp hf
    decide

theorem lowStart_first : FirstPage lowStart.memFree := ⟨⟨LOMEM_END, 0x1000000⟩, rfl, by decide⟩

theorem memory_identity_map_lone : ∃ e', lowStart.memoryIdentityMap = .ok e' ∧ e'.cpuCr3 = e'.cr3 := by
  obtain ⟨hiff, hall⟩ := memory_identity_map lowStart_early
  obtain ⟨e', hrun⟩ := hiff.mpr lowStart_first
  exact ⟨e', hrun, (hall e' hrun).cpu⟩

end FuseeOS
