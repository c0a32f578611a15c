import FuseeOS.Tools.VolumeSteps

/-!
# Where the tool writes

* `volumeStep_confined`      a step writes in its region exactly if its page numbers are inside;
* **`mkvolume_confined`**    every write of the tool stays in its region exactly if every step is inside;
* `mkvolume_fits`            what that is in numbers, unless a path goes astray.
-/

namespace FuseeOS
open Bytes Program Outcome

/-! ## the regions -/

/-- the pages that are written for a part of the volume -/
def InRegion (v : MfsVolume) : Writer → Nat → Prop
  | .vbr, n => n ≤ 62
  | .metadata, n => n = MFS_METADATA_PAGE
  | .files, n => 64 ≤ n ∧ n < v.pageCount

/-- every page that was written is in the region of what it was written for -/
def WrittenRight (v : MfsVolume) : Prop := ∀ w n, v.written w n = true → InRegion v w n

/-- the tool has come to its end, or has reported that it cannot, with every write in its region -/
def Confined {α : Type} : Outcome α → Prop
  | .ok (_, v) => WrittenRight v
  | .error (.tooLarge v) => WrittenRight v
  | .error .undefined => False

section
variable {α : Type} {v : MfsVolume}

theorem writtenRight_put {w : Writer} {n off : Nat} {l : List UInt8} :
    WrittenRight (v.put w n off l) ↔ WrittenRight v ∧ InRegion v w n := by
  constructor
  · intro h
    constructor
    · intro w' n' hw
      exact h w' n' (by rw [v.put_written, hw, Bool.true_or])
    · exact h w n (by rw [v.put_written, decide_eq_true rfl, decide_eq_true rfl, Bool.and_self, Bool.or_true])
  · intro h w' n' hw
    rw [v.put_written, Bool.or_eq_true, Bool.and_eq_true, decide_eq_true_eq, decide_eq_true_eq] at hw
    rcases hw with hw | ⟨rfl, rfl⟩
    · exact h.1 w' n' hw
    · exact h.2

theorem confined_inodePage {p : Nat} {k : Nat → Outcome α} : Confined ((inodePage v p).bind k) ↔
    inodeNumber p < v.pageCount ∧ Confined (k (inodeNumber p)) := by
  unfold inodePage inodeNumber
  split_ifs with h
  · exact ⟨fun hk => ⟨h, hk⟩, fun hk => hk.2⟩
  · exact ⟨fun hk => hk.elim, fun hk => h hk.1⟩

/-- the volume after `alloc_page` -/
def afterAlloc (v : MfsVolume) : MfsVolume :=
  let next := nextPage v.nextInode
  let bit := next % MFS_BITMAP_SIZE
  let n := inodeNumber (bitmapInode next)
  { v with nextInode := next }.put .files n (bit / 8) [v.pages n (bit / 8) ||| 1 <<< UInt8.ofNat (bit % 8)]

theorem confined_allocPage {k : Nat × MfsVolume → Outcome α} : Confined ((allocPage v).bind k) ↔
    inodeNumber (bitmapInode (nextPage v.nextInode)) < v.pageCount ∧
      Confined (k (nextPage v.nextInode, afterAlloc v)) := by
  unfold allocPage
  dsimp only
  rw [bind_assoc]
  exact confined_inodePage

theorem writtenRight_afterAlloc : WrittenRight (afterAlloc v) ↔
    WrittenRight v ∧ InRegion v .files (inodeNumber (bitmapInode (nextPage v.nextInode))) := writtenRight_put

/-- **A step writes in its region exactly if its page numbers are inside.** -/
theorem volumeStep_confined (op : VolumeOp) (v : MfsVolume) :
    Confined (volumeStep op v) ↔ WrittenRight v ∧ StepInside op v := by
  cases op with
  | metadata off l =>
    unfold volumeStep StepInside
    dsimp only
    split_ifs with h
    · exact ⟨fun hc => hc.elim, fun hc => absurd h (Nat.not_le.mpr hc.2)⟩
    · exact writtenRight_put.trans ⟨fun hc => ⟨hc.1, Nat.not_le.mp h⟩, fun hc => ⟨hc.1, rfl⟩⟩
  | setRoot inode =>
    show WrittenRight (v.put .metadata MFS_METADATA_PAGE Mfs.root (le 8 inode)) ↔ _
    exact writtenRight_put.trans ⟨fun hc => ⟨hc.1, trivial⟩, fun hc => ⟨hc.1, rfl⟩⟩
  | vbrPage n l =>
    unfold volumeStep StepInside
    dsimp only
    split_ifs with h
    · exact writtenRight_put.trans
        ⟨fun hc => ⟨hc.1, Nat.lt_succ_of_le hc.2, h⟩, fun hc => ⟨hc.1, Nat.le_of_lt_succ hc.2.1⟩⟩
    · exact ⟨fun hc => hc.elim, fun hc => h hc.2.2⟩
  | create mode =>
    show Confined (createFileRaw v mode) ↔ WrittenRight v ∧ FilePage v _ ∧ FilePage v _
    unfold createFileRaw
    rw [confined_allocPage]
    dsimp only
    rw [confined_inodePage]
    show _ ∧ _ ∧ WrittenRight _ ↔ _
    simp only [writtenRight_put, writtenRight_afterAlloc]
    constructor
    · intro hc
      exact ⟨hc.2.2.1.1.1.1.1.1, ⟨hc.2.2.1.1.1.1.1.2.1, hc.1⟩, ⟨hc.2.2.2.1, hc.2.1⟩⟩
    · intro hc
      exact ⟨hc.2.1.2, hc.2.2.2, ⟨⟨⟨⟨⟨⟨hc.1, hc.2.1⟩, hc.2.2⟩, hc.2.2⟩, hc.2.2⟩, hc.2.2⟩, hc.2.2⟩⟩
  | openInode inode =>
    show Confined ((inodePage v inode).bind _) ↔ WrittenRight v ∧ inodeNumber inode < v.pageCount
    rw [confined_inodePage]
    exact and_comm
  | pointer n off =>
    show Confined (pointerPage v n off) ↔ WrittenRight v ∧ StepInside (.pointer n off) v
    unfold pointerPage pointerOrAlloc StepInside
    dsimp only
    split_ifs with h
    · rw [bind_assoc, confined_allocPage]
      simp only [ok_bind]
      rw [confined_inodePage]
      show _ ∧ _ ∧ WrittenRight _ ↔ _
      rw [writtenRight_put, writtenRight_afterAlloc]
      constructor
      · intro hc
        exact ⟨hc.2.2.1.1, ⟨hc.2.2.1.2.1, hc.1⟩, hc.2.2.2, hc.2.1⟩
      · intro hc
        exact ⟨hc.2.1.2, hc.2.2.2, ⟨hc.1, hc.2.1⟩, hc.2.2.1⟩
    · rw [ok_bind]
      dsimp only
      rw [confined_inodePage]
      exact and_comm
  | get n off => exact ⟨fun hc => ⟨hc, trivial⟩, fun hc => hc.1⟩
  | fetch n off len => exact ⟨fun hc => ⟨hc, trivial⟩, fun hc => hc.1⟩
  | write file n off l =>
    show WrittenRight ((v.put .files n off l).put .files file Mfs.size _) ↔ _
    rw [writtenRight_put, writtenRight_put]
    exact and_assoc
  | root => exact ⟨fun hc => ⟨hc, trivial⟩, fun hc => hc.1⟩
  | tooLarge => exact ⟨fun hc => ⟨hc, trivial⟩, fun hc => hc.1⟩
  | undefined => exact ⟨fun hc => hc.elim, fun hc => hc.2⟩

end

/-! ## the whole tool -/

/-- a reason to stop that leaves every write in its region -/
def RightStop : Failure → Prop
  | .tooLarge v => WrittenRight v
  | .undefined => False

theorem confined_iff_ends {α : Type} (r : Outcome α) :
    Confined r ↔ Ends RightStop (fun x => WrittenRight x.2) r := by
  cases r with
  | ok x => exact ⟨fun h => Ends.of_ok h, fun h => h.ok x rfl⟩
  | error e =>
    cases e with
    | tooLarge v => exact ⟨fun h => Ends.of_error h, fun h => h.error _ rfl⟩
    | undefined => exact ⟨fun h => h.elim, fun h => h.error _ rfl⟩

/-- **A run of steps stays in its regions exactly if every step is inside.** -/
theorem confined_iff_along {α : Type} (p : VolumeProgram α) {v : MfsVolume} (hv : WrittenRight v) :
    Confined (p.run volumeStep v) ↔ p.Along volumeStep StepInside v := by
  rw [confined_iff_ends]
  refine ends_iff_along (fun op s h => ?_) (fun op s hs => ?_) p hv
  · exact ((volumeStep_confined op s).mp ((confined_iff_ends _).mpr h)).1
  · rw [← confined_iff_ends, volumeStep_confined]
    exact ⟨fun h => h.2, fun h => ⟨hs, h⟩⟩

/-- the last page that is handed out -/
def lastPage : StoreOutcome Unit → Option Nat
  | .ok (_, a) => some a.next
  | .error (.tooLarge a) => some a.next
  | .error _ => none

/-- the boot record has at most 63 pages, and the pages behind the metadata are enough for what the files take -/
def Fits (size : Nat) (vbr : List UInt8) (files : List (List UInt8 × List UInt8)) : Prop :=
  vbr.length ≤ 63 * 4096 ∧ ∃ p, lastPage (FileStore.initial.copyFiles 1 files) = some p ∧
    64 + p < (size + 4095) / 4096

/-- a path goes through a file whose bytes, read as entries, give an inode that is not one of a file -/
def Stray (files : List (List UInt8 × List UInt8)) : Prop :=
  FileStore.initial.copyFiles 1 files = .error .stray

theorem lastPage_pos {files : List (List UInt8 × List UInt8)} {p : Nat}
    (h : lastPage (FileStore.initial.copyFiles 1 files) = some p) : 1 ≤ p := by
  have hgrows := copyFiles_grows .initial 1 files
  cases hr : FileStore.initial.copyFiles 1 files with
  | ok x =>
    rw [hr] at h hgrows
    cases h
    exact hgrows
  | error e =>
    rw [hr] at h hgrows
    cases e with
    | tooLarge b =>
      cases h
      exact hgrows
    | undefined => cases h
    | stray => cases h

/-- what the files leave of a volume in which all else is right -/
theorem Refines.writtenRight {v v' : MfsVolume} {a : FileStore} (h : Refines v' a) (hk : Kept v v')
    (hvbr : ∀ n, v.written .vbr n = true → n < 63) (hmeta : ∀ n, v.written .metadata n = true → n = 63) :
    WrittenRight v' := by
  intro w n hn
  cases w with
  | vbr =>
    rw [hk.vbr] at hn
    exact Nat.le_of_lt_succ (hvbr n hn)
  | metadata =>
    rw [hk.metadata] at hn
    exact hmeta n hn
  | files => exact h.region n hn

/-- the files in a volume in which all else is right -/
theorem copyFiles_confined {v : MfsVolume} (h : Refines v .initial) (hroot : v.root = 1)
    (hvbr : ∀ n, v.written .vbr n = true → n < 63) (hmeta : ∀ n, v.written .metadata n = true → n = 63)
    {files : List (List UInt8 × List UInt8)} (hstray : ¬ Stray files) : Confined (copyFiles v files) ↔
      ∃ p, lastPage (FileStore.initial.copyFiles 1 files) = some p ∧ 64 + p < v.pageCount := by
  have hsim := copyFiles_simulates h hroot files
  have hundefined (e : copyFiles v files = .error .undefined)
      (hno : ∀ p, lastPage (FileStore.initial.copyFiles 1 files) = some p → ¬ 64 + p < v.pageCount) :
      Confined (copyFiles v files) ↔
        ∃ p, lastPage (FileStore.initial.copyFiles 1 files) = some p ∧ 64 + p < v.pageCount := by
    rw [e]
    exact ⟨fun hf => hf.elim, fun ⟨p, hp, hlt⟩ => hno p hp hlt⟩
  unfold Simulates at hsim
  unfold Stray at hstray
  cases hr : FileStore.initial.copyFiles 1 files with
  | ok x =>
    rw [hr] at hsim hundefined
    dsimp only at hsim
    split_ifs at hsim with hroom
    · obtain ⟨_, v', e, hr', hk, -⟩ := hsim
      rw [e]
      exact ⟨fun _ => ⟨_, rfl, hroom⟩, fun _ => hr'.writtenRight hk hvbr hmeta⟩
    · exact hundefined hsim fun p hp => Option.some.inj hp ▸ hroom
  | error e =>
    rw [hr] at hsim hundefined
    cases e with
    | tooLarge b =>
      dsimp only at hsim
      split_ifs at hsim with hroom
      · obtain ⟨v', e, hr', hk⟩ := hsim
        rw [e]
        exact ⟨fun _ => ⟨_, rfl, hroom⟩, fun _ => hr'.writtenRight hk hvbr hmeta⟩
      · exact hundefined hsim fun p hp => Option.some.inj hp ▸ hroom
    | undefined => exact hundefined hsim fun p hp => nomatch hp
    | stray => exact absurd hr hstray

/-- a boot record whose pages are all in their places -/
theorem vbrSteps_along {v : MfsVolume} {n : Nat} (hn : n ≤ 63) {src : List UInt8}
    (h : (vbrSteps n src).Along volumeStep StepInside v) : src.length ≤ (63 - n) * 4096 := by
  induction hk : src.length using Nat.strong_induction_on generalizing v n src with
  | _ k ih =>
    subst hk
    rw [vbrSteps] at h
    split_ifs at h with hsrc
    · rw [hsrc]
      exact Nat.zero_le _
    · have hpos := List.length_pos_iff.mpr hsrc
      have hsize : MFS_PAGE_SIZE = 4096 := rfl
      obtain ⟨⟨hstep, -⟩, hrest⟩ := (along_bind _ _).mp h
      have hlt : n < 63 := hstep.1
      have hdrop : (src.drop MFS_PAGE_SIZE).length = src.length - 4096 := List.length_drop
      have hrun := hrest () (v.put .vbr n 0 (src.take MFS_PAGE_SIZE)) (by rw [vbrPage_run, if_pos hstep.2])
      have hle := ih _ (by omega) (n := n + 1) (by omega) hrun rfl
      omega

/-- **In numbers**: the boot record and the files have to fit, unless a path goes astray. -/
theorem mkvolume_fits {size : Nat} (hsize : size + 4095 < 2^31) (now : Nat) (vbr : List UInt8)
    {files : List (List UInt8 × List UInt8)} (hstray : ¬ Stray files) :
    Confined (mkvolume size now vbr files) ↔ Fits size vbr files := by
  have hmake := makeVolume_spec hsize now
  unfold mkvolume
  split_ifs at hmake with hroom
  · obtain ⟨v, e, hr, hroot, hv, hmeta, hvbr⟩ := hmake
    rw [e, ok_bind]
    dsimp only
    by_cases hlen : vbr.length ≤ 63 * 4096
    · obtain ⟨u, e', hu, hroot', hsize', hmeta', hvbr'⟩ := vbrLoop_spec hr (Nat.zero_le 63) hlen
      have hcount : u.pageCount = (size + 4095) / 4096 := by
        rw [MfsVolume.pageCount, hsize', hv]
        exact Nat.mul_div_cancel _ (by decide)
      have hfiles := copyFiles_confined hu (hroot'.trans hroot) (fun n hn => ?_)
        (fun n hn => hmeta n (hmeta' ▸ hn)) hstray
      · rw [hcount] at hfiles
        rw [makeVbr, e', ok_bind]
        exact hfiles.trans ⟨fun hp => ⟨hlen, hp⟩, fun hp => hp.2⟩
      · rcases hvbr' n hn with hold | hlt
        · rw [hvbr] at hold
          cases hold
        · exact hlt
    · refine ⟨fun hc => absurd ?_ hlen, fun hf => absurd hf.1 hlen⟩
      have hright : WrittenRight v := hr.writtenRight (Kept.refl v) (fun n hn => by
        rw [hvbr] at hn
        cases hn) hmeta
      have hrun : Confined ((vbrSteps 0 vbr >>= fun _ => copyFilesSteps files).run volumeStep v) := by
        rw [run_bind, vbrSteps_run]
        have e : (fun r : Unit × MfsVolume => (copyFilesSteps files).run volumeStep r.2) =
            fun r => copyFiles r.2 files := funext fun r => copyFilesSteps_run r.2 files
        rw [e]
        exact hc
      exact vbrSteps_along (Nat.zero_le 63) ((along_bind _ _).mp ((confined_iff_along _ hright).mp hrun)).1
  · rw [hmake]
    refine ⟨fun hc => hc.elim, fun hf => ?_⟩
    obtain ⟨-, p, hp, hlt⟩ := hf
    have hpos := lastPage_pos hp
    omega

end FuseeOS
