import FuseeOS.Tools.VolumeRep

/-!
# Writing to the files of a volume

What `mkvolume` does to the volume is what happens in the store, unless the volume has too few pages.

* `Simulates`, `Simulates.bind`   an outcome beside one of the store; steps one after the other;
* `ptrFromDataIndex_held`         a page that the file has;
* `endPage_simulates`             the page behind the end of a file;
* `fileWrite_simulates`           writing at the end of a file.
-/

namespace FuseeOS
open Bytes

/-! ## outcomes side by side -/

/-- the outcome in the volume `v` is that of the store, whose results are related by `R`; it is undefined
when the pages of the volume are not enough.  Nothing is said when the store stops at a stray inode. -/
def Simulates {α β : Type} (v : MfsVolume) (R : α → β → FileStore → Prop) (r : Outcome α)
    (ra : StoreOutcome β) : Prop :=
  match ra with
  | .ok (y, a) =>
    if 64 + a.next < v.pageCount then ∃ x v', r = .ok (x, v') ∧ Refines v' a ∧ Kept v v' ∧ R x y a
    else r = .error .undefined
  | .error (.tooLarge a) =>
    if 64 + a.next < v.pageCount then ∃ v', r = .error (.tooLarge v') ∧ Refines v' a ∧ Kept v v'
    else r = .error .undefined
  | .error .undefined => r = .error .undefined
  | .error .stray => True

/-- a step of the store hands out pages behind `n` -/
def Grows {β : Type} (n : Nat) (ra : StoreOutcome β) : Prop :=
  match ra with
  | .ok (_, a) => n ≤ a.next
  | .error (.tooLarge a) => n ≤ a.next
  | .error .undefined => True
  | .error .stray => True

section
variable {α β γ δ : Type} {v v' : MfsVolume} {a : FileStore} {n m : Nat}

theorem Grows.mono {ra : StoreOutcome β} (h : Grows m ra) (hn : n ≤ m) : Grows n ra := by
  cases ra with
  | ok x => exact Nat.le_trans hn h
  | error e =>
    cases e with
    | tooLarge a => exact Nat.le_trans hn h
    | undefined => trivial
    | stray => trivial

theorem Grows.bind {ra : StoreOutcome β} {k : β × FileStore → StoreOutcome δ} (h : Grows n ra)
    (hk : ∀ y a, Grows a.next (k (y, a))) : Grows n (ra.bind k) := by
  cases ra with
  | ok x => exact (hk x.1 x.2).mono h
  | error e =>
    cases e with
    | tooLarge a => exact h
    | undefined => trivial
    | stray => trivial

theorem Simulates.pure {R : α → β → FileStore → Prop} {x : α} {y : β} (h : Refines v a) (hR : R x y a) :
    Simulates v R (.ok (x, v)) (.ok (y, a)) := by
  unfold Simulates
  dsimp only
  rw [if_pos h.room]
  exact ⟨x, v, rfl, h, Kept.refl v, hR⟩

/-- a step whose store has too few pages in the volume -/
theorem Simulates.of_grows {R : α → β → FileStore → Prop} {ra : StoreOutcome β}
    (h : Grows n ra) (hn : ¬ 64 + n < v.pageCount) : Simulates v R (.error .undefined) ra := by
  unfold Simulates
  cases ra with
  | ok x =>
    have hx : n ≤ x.2.next := h
    dsimp only
    rw [if_neg (by omega)]
  | error e =>
    cases e with
    | tooLarge b =>
      have hb : n ≤ b.next := h
      dsimp only
      rw [if_neg (by omega)]
    | undefined => rfl
    | stray => trivial

/-- what was changed before does not matter -/
theorem Simulates.trans {R : α → β → FileStore → Prop} {r : Outcome α} {ra : StoreOutcome β}
    (hk : Kept v v') (h : Simulates v' R r ra) : Simulates v R r ra := by
  unfold Simulates at h ⊢
  rw [hk.pageCount] at h
  cases ra with
  | ok x =>
    dsimp only at h ⊢
    split_ifs at h ⊢ with hroom
    · obtain ⟨x, w, e, hw, hkw, hR⟩ := h
      exact ⟨x, w, e, hw, hk.trans hkw, hR⟩
    · exact h
  | error e =>
    cases e with
    | tooLarge b =>
      dsimp only at h ⊢
      split_ifs at h ⊢ with hroom
      · obtain ⟨w, e, hw, hkw⟩ := h
        exact ⟨w, e, hw, hk.trans hkw⟩
      · exact h
    | undefined => exact h
    | stray => trivial

/-- **One step after the other.** -/
theorem Simulates.bind {R : α → β → FileStore → Prop} {S : γ → δ → FileStore → Prop} {r : Outcome α}
    {ra : StoreOutcome β} {k : α × MfsVolume → Outcome γ} {ka : β × FileStore → StoreOutcome δ}
    (h : Simulates v R r ra) (hgrow : ∀ y a, Grows a.next (ka (y, a)))
    (hk : ∀ x y v' a', Refines v' a' → Kept v v' → R x y a' → Simulates v' S (k (x, v')) (ka (y, a'))) :
    Simulates v S (r.bind k) (ra.bind ka) := by
  cases ra with
  | ok y =>
    obtain ⟨y, b⟩ := y
    unfold Simulates at h
    dsimp only at h
    split_ifs at h with hroom
    · obtain ⟨x, w, e, hw, hkw, hR⟩ := h
      rw [e]
      exact (hk x y w b hw hkw hR).trans hkw
    · rw [h]
      exact Simulates.of_grows (hgrow y b) hroom
  | error e =>
    cases e with
    | tooLarge b =>
      unfold Simulates at h ⊢
      dsimp only [error_bind] at h ⊢
      split_ifs at h ⊢ with hroom
      · obtain ⟨w, e, hw⟩ := h
        exact ⟨w, by rw [e]; rfl, hw⟩
      · rw [h]
        rfl
    | undefined =>
      have h' : r = .error .undefined := h
      rw [h']
      exact (rfl : (_ : Outcome γ) = _)
    | stray => trivial

theorem Simulates.weaken {R S : α → β → FileStore → Prop} {r : Outcome α} {ra : StoreOutcome β}
    (h : Simulates v R r ra) (hRS : ∀ x y a, R x y a → S x y a) : Simulates v S r ra := by
  unfold Simulates at h ⊢
  cases ra with
  | ok y =>
    dsimp only at h ⊢
    split_ifs at h ⊢ with hroom
    · obtain ⟨x, w, e, hw, hkw, hR⟩ := h
      exact ⟨x, w, e, hw, hkw, hRS x _ _ hR⟩
    · exact h
  | error e =>
    cases e with
    | tooLarge b => exact h
    | undefined => exact h
    | stray => trivial

/-- the result is replaced -/
theorem Simulates.map {R : α → β → FileStore → Prop} {S : γ → β → FileStore → Prop} {r : Outcome α}
    {ra : StoreOutcome β} (h : Simulates v R r ra) {k : α → γ} (hRS : ∀ x y a, R x y a → S (k x) y a) :
    Simulates v S (r.bind fun (x, v) => .ok (k x, v)) ra := by
  unfold Simulates at h ⊢
  cases ra with
  | ok y =>
    dsimp only at h ⊢
    split_ifs at h ⊢ with hroom
    · obtain ⟨x, w, e, hw, hkw, hR⟩ := h
      exact ⟨k x, w, by rw [e]; rfl, hw, hkw, hRS x _ _ hR⟩
    · rw [h]
      rfl
  | error e =>
    cases e with
    | tooLarge b =>
      dsimp only at h ⊢
      split_ifs at h ⊢ with hroom
      · obtain ⟨w, e, hw⟩ := h
        exact ⟨w, by rw [e]; rfl, hw⟩
      · rw [h]
        rfl
    | undefined =>
      have h' : r = .error .undefined := h
      rw [h']
      exact (rfl : (_ : Outcome γ) = _)
    | stray => trivial

/-- the result of the store is replaced -/
theorem Simulates.mapStore {R : α → β → FileStore → Prop} {S : α → δ → FileStore → Prop} {r : Outcome α}
    {ra : StoreOutcome β} (h : Simulates v R r ra) {k : β → δ} (hRS : ∀ x y a, R x y a → S x (k y) a) :
    Simulates v S r (ra.bind fun (y, a) => .ok (k y, a)) := by
  unfold Simulates at h ⊢
  cases ra with
  | ok y =>
    dsimp only [ok_bind] at h ⊢
    split_ifs at h ⊢ with hroom
    · obtain ⟨x, w, e, hw, hkw, hR⟩ := h
      exact ⟨x, w, e, hw, hkw, hRS x _ _ hR⟩
    · exact h
  | error e =>
    cases e with
    | tooLarge b => exact h
    | undefined => exact h
    | stray => trivial

end

/-! ## the store grows -/

section
variable (a : FileStore) (f : Nat) (s : StoredFile) (l : List UInt8)

theorem withIndirect_next : a.next ≤ (a.withIndirect f s).2.next := by
  unfold FileStore.withIndirect
  split_ifs
  · exact Nat.le_of_lt (nextPage_spec a.next).1
  · exact Nat.le_refl _

theorem withPage_next : a.next ≤ (a.withPage f s).2.next := Nat.le_of_lt (nextPage_spec a.next).1

theorem endPage_grows : Grows a.next (a.endPage f s) := by
  unfold FileStore.endPage
  split_ifs
  · exact Nat.le_refl _
  · exact Nat.le_trans (withIndirect_next a f s) (withPage_next ..)
  · exact Nat.le_refl _

theorem appendChunk_grows : Grows a.next (a.appendChunk f s l) :=
  (endPage_grows a f s).bind fun _ b => Nat.le_refl b.next

theorem append_grows : Grows a.next (a.append f s l) := by
  induction a, s, l using FileStore.append.induct with
  | case1 a s =>
    rw [FileStore.append, dif_pos rfl]
    exact Nat.le_refl a.next
  | case2 a s l hl tmp ih =>
    rw [FileStore.append, dif_neg hl]
    exact (appendChunk_grows a f s _).bind ih

end

section
variable {v : MfsVolume} {a : FileStore} {f : Nat} {s : StoredFile}

/-! ## the page behind the end -/

/-- **a page that the file has** -/
theorem ptrFromDataIndex_held (h : Refines v a) (hf : a.file f = some s) {i : Nat} (hi : i < s.data.length) :
    ptrFromDataIndex v (64 + f) i = .ok (64 + s.data.getD i 0, v) := by
  have hat := h.file f s hf
  have hs := h.shape f s hf
  have hret := h.owned _ _ (hs.data_owned hi)
  have hfew := hs.few
  unfold ptrFromDataIndex
  by_cases h16 : i < 16
  · rw [if_pos h16]
    exact pointerPage_held h (hat.data i h16) hret
  · have hind := hs.indirect (by omega)
    have hsub : 16 + (i - 16) = i := by omega
    have hslot := hat.inodes hind (i - 16) (by omega)
    rw [hsub] at hslot
    have hmax : MFS_IDATA_POINTERS = 512 := rfl
    rw [if_neg h16, if_pos (by omega), pointerPage_held h hat.idata (h.owned _ _ (hs.ownsIndirect hind)),
      ok_bind]
    exact pointerPage_held h hslot hret

/-- the file with the page of its next byte, and the number of this page -/
structure AtEnd (f : Nat) (s : StoredFile) (m : Nat) (t : StoredFile) (b : FileStore) : Prop where
  file : b.file f = some t
  content : t.content = s.content
  here : s.content.length / 4096 < t.data.length
  page : m = 64 + t.data.getD (s.content.length / 4096) 0

theorem withIndirect_file (hf : a.file f = some s) :
    (a.withIndirect f s).2.file f = some (a.withIndirect f s).1 := by
  unfold FileStore.withIndirect
  split_ifs
  · exact FileStore.set_self ..
  · exact hf

theorem withIndirect_content : (a.withIndirect f s).1.content = s.content := by
  unfold FileStore.withIndirect
  split_ifs <;> rfl

theorem withIndirect_data : (a.withIndirect f s).1.data = s.data := by
  unfold FileStore.withIndirect
  split_ifs <;> rfl

theorem withIndirect_ne_zero (h16 : 16 ≤ s.data.length) : (a.withIndirect f s).1.indirect ≠ 0 := by
  unfold FileStore.withIndirect
  split_ifs with hc
  · exact Nat.pos_iff_ne_zero.mp (Nat.zero_lt_of_lt (nextPage_spec a.next).1)
  · exact fun h0 => hc ⟨h16, h0⟩

theorem withIndirect_few (h16 : s.data.length < 16) : a.withIndirect f s = (s, a) := by
  rw [FileStore.withIndirect, if_neg fun hc => absurd hc.1 (Nat.not_le.mpr h16)]

/-- one more page behind pages that are full -/
theorem withPage_simulates (h : Refines v a) (hf : a.file f = some s) (hlen : s.data.length < 528)
    (hind : 16 ≤ s.data.length → s.indirect ≠ 0) (hfull : s.content.length = 4096 * s.data.length) :
    Simulates v (AtEnd f s) (pointerPage v (64 + (slotAt f s s.data.length).1) (slotAt f s s.data.length).2)
      (.ok (a.withPage f s)) := by
  have hp := dataPage h hf hlen hind
  have hdiv : s.content.length / 4096 = s.data.length := by omega
  show if 64 + (a.withPage f s).2.next < v.pageCount then _ else _
  split_ifs at hp ⊢
  · obtain ⟨v', e, hr, hk⟩ := hp
    refine ⟨_, v', e, hr, hk, FileStore.set_self .., rfl, ?_, ?_⟩
    · show _ < (s.data ++ [nextPage a.next]).length
      rw [List.length_append, List.length_singleton, hdiv]
      exact Nat.lt_succ_self _
    · show _ = 64 + (s.data ++ [nextPage a.next]).getD _ 0
      rw [getD_snoc, if_pos hdiv]
  · exact hp

/-- **the page behind the end of a file** -/
theorem endPage_simulates (h : Refines v a) (hf : a.file f = some s) :
    Simulates v (AtEnd f s) (ptrFromDataIndex v (64 + f) (s.content.length / 4096)) (a.endPage f s) := by
  have hs := h.shape f s hf
  have hpages := hs.pages
  unfold FileStore.endPage
  by_cases hin : s.content.length < 4096 * s.data.length
  · have hi : s.content.length / 4096 < s.data.length := by omega
    rw [if_pos hin, ptrFromDataIndex_held h hf hi]
    exact Simulates.pure h ⟨hf, rfl, hi, rfl⟩
  · have hfull : s.content.length = 4096 * s.data.length := by omega
    have hdiv : s.content.length / 4096 = s.data.length := by omega
    rw [if_neg hin, hdiv]
    by_cases hmany : s.data.length < 528
    · rw [if_pos hmany, ptrFromDataIndex]
      by_cases h16 : s.data.length < 16
      · have hp := withPage_simulates h hf hmany (fun hge => absurd hge (Nat.not_le.mpr h16)) hfull
        rw [slotAt, if_pos h16] at hp
        rw [if_pos h16, FileStore.grow, withIndirect_few h16]
        exact hp
      · have hge := Nat.le_of_not_lt h16
        have hp := indirectPage h hf hge
        have hstep : Simulates v (fun m t b => m = 64 + t.indirect ∧ (t, b) = a.withIndirect f s)
            (pointerPage v (64 + f) Mfs.idata) (.ok (a.withIndirect f s)) := by
          show if 64 + (a.withIndirect f s).2.next < v.pageCount then _ else _
          split_ifs at hp ⊢
          · obtain ⟨v', e, hr, hk⟩ := hp
            exact ⟨_, v', e, hr, hk, rfl, rfl⟩
          · exact hp
        rw [if_neg h16, if_pos (by omega)]
        show Simulates v _ _ ((Except.ok (a.withIndirect f s)).bind fun p => .ok (p.2.withPage f p.1))
        refine hstep.bind (fun t b => withPage_next b f t) fun m t v' b hr hk hmt => ?_
        obtain ⟨rfl, hw⟩ := hmt
        have ht : t = (a.withIndirect f s).1 := congrArg Prod.fst hw
        have hb : b = (a.withIndirect f s).2 := congrArg Prod.snd hw
        have htc : t.content = s.content := ht ▸ withIndirect_content
        have htd : t.data = s.data := ht ▸ withIndirect_data
        have htf : b.file f = some t := by
          rw [hb, ht]
          exact withIndirect_file hf
        have hp := withPage_simulates hr htf (by rw [htd]; exact hmany)
          (fun _ => ht ▸ withIndirect_ne_zero hge) (by rw [htc, htd]; exact hfull)
        rw [slotAt, if_neg (by rw [htd]; exact h16), htd] at hp
        refine hp.weaken fun m t' b' hend => ⟨hend.file, hend.content.trans htc, ?_, ?_⟩
        · rw [← htc]
          exact hend.here
        · rw [← htc]
          exact hend.page
    · have hmax := hs.few
      rw [if_neg hmany, ptrFromDataIndex, if_neg (by omega), if_neg (by unfold MFS_IDATA_POINTERS; omega)]
      show if 64 + a.next < v.pageCount then _ else _
      rw [if_pos h.room]
      exact ⟨v, rfl, h, Kept.refl v⟩

/-! ## writing -/

/-- bytes are written behind the end, into the page that is there for them -/
theorem FileAt.putChunk {owner : Nat → Option (Nat × Slot)} (h : FileAt v f s) (hs : Shape owner f s)
    {l : List UInt8} (hhere : s.content.length / 4096 < s.data.length)
    (hfit : s.content.length % 4096 + l.length ≤ 4096) :
    FileAt ((v.put .files (64 + s.data.getD (s.content.length / 4096) 0) (s.content.length % 4096) l).put
      .files (64 + f) Mfs.size (le 8 (s.content.length + l.length))) f { s with content := s.content ++ l } := by
  have hd := hs.data_ne_inode hhere
  have hfew := hs.few
  have hn : s.content.length + l.length < 2^64 := by omega
  -- the page of the inode sees the second write only
  have hinode : (v.put .files (64 + s.data.getD (s.content.length / 4096) 0) (s.content.length % 4096) l).inode f =
      v.inode f := put_inode_ne v _ _ hd.symm
  have hother : ∀ q, q ≠ f → q ≠ s.data.getD (s.content.length / 4096) 0 →
      ((v.put .files (64 + s.data.getD (s.content.length / 4096) 0) (s.content.length % 4096) l).put
        .files (64 + f) Mfs.size (le 8 (s.content.length + l.length))).inode q = v.inode q := fun q hqf hqd => by
    rw [put_inode_ne _ _ _ hqf, put_inode_ne _ _ _ hqd]
  refine ⟨?_, fun i hi => ?_, ?_, fun hind i hi => ?_, fun i hi => ?_⟩
  · rw [put_inode_self, get64_store _ (by decide) (by decide) hn, if_pos rfl, List.length_append]
  · rw [put_inode_self, get64_store _ (by decide) (Mfs.data_mod i) hn, if_neg Mfs.size_ne_data.symm, hinode]
    exact h.data i hi
  · rw [put_inode_self, get64_store _ (by decide) (by decide) hn, if_neg (by decide), hinode]
    exact h.idata
  · dsimp only at hind ⊢
    rw [hother _ (hs.indirect_ne_inode hind) (hs.data_ne_indirect hhere hind).symm]
    exact h.inodes hind i hi
  · dsimp only at hi ⊢
    rw [List.length_append] at hi
    have hpage : i / 4096 < s.data.length := by
      have hlen := hs.pages
      omega
    by_cases hsame : i / 4096 = s.content.length / 4096
    · rw [put_inode_ne _ _ _ (hs.data_ne_inode hpage), hsame, put_inode_self]
      by_cases hold : i < s.content.length
      · rw [List.getElem_append_left hold, store_of_lt _ _ (by omega), ← hsame]
        exact h.bytes i hold
      · have hat := holdsAt_store (v.inode (s.data.getD (s.content.length / 4096) 0)) (s.content.length % 4096) l
          (i - s.content.length) (by omega)
        have hi' : s.content.length % 4096 + (i - s.content.length) = i % 4096 := by omega
        rw [hi'] at hat
        rw [hat, List.getElem_append_right (Nat.le_of_not_lt hold)]
    · have hold : i < s.content.length := by omega
      have hne : s.data.getD (i / 4096) 0 ≠ s.data.getD (s.content.length / 4096) 0 := fun e => by
        have ho := hs.data_owned hpage
        rw [e, hs.data_owned hhere] at ho
        exact hsame (Slot.data.inj (congrArg Prod.snd (Option.some.inj ho))).symm
      rw [hother _ (hs.data_ne_inode hpage) hne, List.getElem_append_left hold]
      exact h.bytes i hold

theorem kept_putChunk (v : MfsVolume) (m f off n : Nat) (l : List UInt8) :
    Kept v ((v.put .files (64 + m) off l).put .files (64 + f) Mfs.size (le 8 n)) :=
  (kept_put v off l (Nat.le_add_right 64 m)).trans (kept_put _ Mfs.size (le 8 n) (Nat.le_add_right 64 f))

theorem Refines.putChunk (h : Refines v a) (hf : a.file f = some s) {l : List UInt8}
    (hhere : s.content.length / 4096 < s.data.length) (hfit : s.content.length % 4096 + l.length ≤ 4096) :
    Refines ((v.put .files (64 + s.data.getD (s.content.length / 4096) 0) (s.content.length % 4096) l).put
      .files (64 + f) Mfs.size (le 8 (s.content.length + l.length)))
      (a.set f { s with content := s.content ++ l }) := by
  have hs := h.shape f s hf
  have hinside : ∀ q slot, a.owner q = some (f, slot) → 64 + q < v.pageCount := fun _ _ hq => h.inside hq
  have hlen : (s.content ++ l).length ≤ 4096 * s.data.length := by
    rw [List.length_append]
    omega
  refine h.update (kept_putChunk v _ f _ _ l) rfl (fun q hq => ?_) (fun n hn => ?_) ((h.file f s hf).putChunk hs hhere hfit)
    ⟨hlen, hs.few, hs.indirect, hs.ownsInode, hs.ownsData, hs.ownsIndirect⟩
  · have hqf : q ≠ f := fun e => hq .inode (by rw [e, hs.ownsInode])
    have hqd : q ≠ s.data.getD (s.content.length / 4096) 0 := fun e => hq _ (by rw [e, hs.data_owned hhere])
    rw [put_inode_ne _ _ _ hqf, put_inode_ne _ _ _ hqd]
  · rw [MfsVolume.put_written, MfsVolume.put_written, Bool.or_assoc] at hn
    rcases Bool.or_eq_true_iff.mp hn with hn | hn
    · exact h.region n hn
    · rcases Bool.or_eq_true_iff.mp hn with hn | hn
      · have hn' : n = _ := of_decide_eq_true (Bool.and_eq_true_iff.mp hn).2
        exact hn' ▸ ⟨Nat.le_add_right 64 _, hinside _ _ (hs.data_owned hhere)⟩
      · have hn' : n = _ := of_decide_eq_true (Bool.and_eq_true_iff.mp hn).2
        exact hn' ▸ ⟨Nat.le_add_right 64 _, hinside _ _ hs.ownsInode⟩

/-- the file after bytes were appended, and the stream behind them -/
structure Appended (f : Nat) (s : StoredFile) (l : List UInt8) (g : MfsFile) (t : StoredFile)
    (b : FileStore) : Prop where
  file : b.file f = some t
  content : t.content = s.content ++ l
  stream : g = ⟨64 + f, t.content.length⟩

/-- **one round of the loop** -/
theorem writeChunk_simulates (h : Refines v a) (hf : a.file f = some s) {l : List UInt8}
    (hfit : s.content.length % 4096 + l.length ≤ 4096) :
    Simulates v (Appended f s l) (writeChunk v ⟨64 + f, s.content.length⟩ l) (a.appendChunk f s l) := by
  refine (endPage_simulates h hf).bind (fun t b => Nat.le_refl b.next) fun m t v' b hr hk hend => ?_
  obtain ⟨htf, htc, hhere, rfl⟩ := hend
  have hsize : get64 (v'.pages (64 + f)) Mfs.size = t.content.length := (hr.file f t htf).size
  have hd := (hr.shape f t htf).data_ne_inode hhere
  have hpage : (v'.put .files (64 + t.data.getD (s.content.length / 4096) 0) (s.content.length % 4096) l).pages
      (64 + f) = v'.pages (64 + f) := put_inode_ne v' _ _ hd.symm
  dsimp only
  rw [hpage, hsize]
  rw [← htc] at hhere hfit ⊢
  have hstream : (⟨64 + f, t.content.length + l.length⟩ : MfsFile) = ⟨64 + f, (t.content ++ l).length⟩ := by
    rw [List.length_append]
  refine Simulates.trans (kept_putChunk v' _ f _ _ l) (Simulates.pure (hr.putChunk htf hhere hfit) ?_)
  exact ⟨FileStore.set_self .., congrArg (fun c => c ++ l) htc, hstream⟩

/-- **Writing at the end of a file.** -/
theorem fileWrite_simulates (h : Refines v a) (hf : a.file f = some s) (l : List UInt8) :
    Simulates v (Appended f s l) (fileWrite v ⟨64 + f, s.content.length⟩ l) (a.append f s l) := by
  induction a, s, l using FileStore.append.induct generalizing v with
  | case1 a s =>
    rw [FileStore.append, dif_pos rfl, fileWrite, dif_pos rfl]
    exact Simulates.pure h ⟨hf, (List.append_nil _).symm, rfl⟩
  | case2 a s l hl tmp =>
    rename_i ih
    have hmod : s.content.length % 4096 < 4096 := Nat.mod_lt _ (by decide)
    have hfit : s.content.length % 4096 +
        (l.take (min (4096 - s.content.length % 4096) l.length)).length ≤ 4096 := by
      rw [List.length_take]
      omega
    rw [FileStore.append, dif_neg hl, fileWrite, dif_neg hl]
    refine (writeChunk_simulates h hf hfit).bind (fun t b => append_grows b f t _) fun g t v' b hr hk hg => ?_
    obtain ⟨htf, htc, rfl⟩ := hg
    refine (ih t b hr htf).weaken fun g t' b' hg => ⟨hg.file, ?_, hg.stream⟩
    rw [hg.content, htc, List.append_assoc, List.take_append_drop]

/-! ## new files -/

theorem FileStore.set_same (hf : a.file f = some s) : a.set f s = a := by
  unfold FileStore.set
  rw [← hf, Function.update_eq_self]

/-- the mode and the times of a file are beside what its data needs -/
theorem FileAt.putMeta {owner : Nat → Option (Nat × Slot)} (h : FileAt v f s) (hs : Shape owner f s) {off : Nat}
    {l : List UInt8} (hoff : off + l.length ≤ Mfs.size ∨ Mfs.btime ≤ off ∧ off + l.length ≤ Mfs.data 0) :
    FileAt (v.put .files (64 + f) off l) f s := by
  have hsize : Mfs.size = 16 := rfl
  have hbtime : Mfs.btime = 24 := rfl
  have hdata : ∀ i, Mfs.data i = 56 + 8 * i := fun i => rfl
  have hidata : Mfs.idata = 184 := rfl
  rw [hsize, hbtime, hdata] at hoff
  have hbeside : ∀ o, o = Mfs.size ∨ Mfs.data 0 ≤ o →
      get64 ((v.put .files (64 + f) off l).inode f) o = get64 (v.inode f) o := fun o ho => by
    rw [put_inode_self]
    rw [hsize, hdata] at ho
    exact readLe_store_beside (v.inode f) l (by omega)
  refine ⟨?_, fun i hi => ?_, ?_, fun hind i hi => ?_, fun i hi => ?_⟩
  · rw [hbeside _ (Or.inl rfl)]
    exact h.size
  · rw [hbeside _ (Or.inr (by rw [hdata, hdata]; omega))]
    exact h.data i hi
  · rw [hbeside _ (Or.inr (by decide))]
    exact h.idata
  · rw [put_inode_ne v _ _ (hs.indirect_ne_inode hind)]
    exact h.inodes hind i hi
  · rw [put_inode_ne v _ _ (hs.data_ne_inode (hs.div_lt hi))]
    exact h.bytes i hi

theorem Refines.putMeta (h : Refines v a) (hf : a.file f = some s) {off : Nat} {l : List UInt8}
    (hoff : off + l.length ≤ Mfs.size ∨ Mfs.btime ≤ off ∧ off + l.length ≤ Mfs.data 0) :
    Refines (v.put .files (64 + f) off l) a := by
  have hs := h.shape f s hf
  have hup := h.put hs.ownsInode ((h.file f s hf).putMeta hs hoff) hs
  rw [FileStore.set_same hf] at hup
  exact hup

/-- the page of a new file -/
theorem FileAt.blank (h : v.inode f = fun _ => 0) : FileAt v f .empty := by
  have hzero : ∀ o, get64 (v.inode f) o = 0 := fun o => by
    rw [h]
    exact readLe_zero fun _ _ => rfl
  exact ⟨hzero _, fun i _ => (hzero _).trans (List.getD_nil ..).symm, hzero _, fun hind => absurd rfl hind,
    fun i hi => absurd hi (Nat.not_lt_zero i)⟩

theorem Refines.create (h : Refines v a) (hroom : 64 + nextPage a.next < v.pageCount) :
    Refines v.allocated a.create.2 := by
  have h1 := h.alloc hroom (nextPage a.next) .inode
  obtain ⟨hlt, hmod, -⟩ := nextPage_spec a.next
  have hblank : v.allocated.inode (nextPage a.next) = fun _ => 0 := by
    rw [allocated_inode_of_ne fun e => hmod (by rw [e]; exact bitmap_mod _)]
    exact h.blank _ hlt hmod hroom
  refine h1.update (Kept.refl _) rfl (fun _ _ => rfl) h1.region (FileAt.blank hblank)
    ⟨Nat.le_refl 0, Nat.zero_le _, fun hgt => absurd hgt (Nat.not_lt_zero _), a.take_self .., fun i hi => ?_,
      fun hind => absurd rfl hind⟩
  exact absurd hi (Nat.not_lt_zero i)

/-- **A new file or directory.** -/
theorem createFileRaw_simulates (h : Refines v a) (mode : Nat) :
    Simulates v (fun p q b => p = q ∧ b.file q = some .empty) (createFileRaw v mode) (.ok a.create) := by
  have hfile : a.create.2.file (nextPage a.next) = some .empty := FileStore.set_self ..
  have hcount := (kept_allocated v).pageCount
  show if 64 + nextPage a.next < v.pageCount then _ else _
  unfold createFileRaw
  by_cases hroom : 64 + nextPage a.next < v.pageCount
  · have hc := h.create hroom
    have hin := Nat.le_add_right 64 (nextPage a.next)
    rcases allocPage_cases h with e | ⟨-, hno⟩
    · rw [if_pos hroom, e, ok_bind]
      dsimp only
      rw [inodePage_ok hc.small (hcount.symm ▸ hroom), ok_bind]
      refine ⟨_, _, rfl, ((((hc.putMeta hfile ?_).putMeta hfile ?_).putMeta hfile ?_).putMeta hfile ?_).putMeta
        hfile ?_, ?_, rfl, hfile⟩
      · exact Or.inl (by rw [length_le]; decide)
      · exact Or.inr (by rw [length_le]; decide)
      · exact Or.inr (by rw [length_le]; decide)
      · exact Or.inr (by rw [length_le]; decide)
      · exact Or.inr (by rw [length_le]; decide)
      · exact (((((kept_allocated v).trans (kept_put _ _ _ hin)).trans (kept_put _ _ _ hin)).trans
          (kept_put _ _ _ hin)).trans (kept_put _ _ _ hin)).trans (kept_put _ _ _ hin)
    · exact absurd hroom hno
  · rw [if_neg hroom]
    rcases allocPage_cases h with e | ⟨e, -⟩
    · rw [e, ok_bind]
      dsimp only
      rw [inodePage_error (nextPage_small h) (hcount.symm ▸ hroom)]
      rfl
    · rw [e]
      rfl

end

end FuseeOS
