import Mathlib.Order.Defs.Unbundled
import Mathlib.Data.List.Induction

/-!
# Keeping a candidate

A scan that keeps one element, and takes a later one instead if that one beats it.

* `Kept`                 an element that the scan takes when it comes to it;
* `keep_eq_some_iff`     what is left at the end is the element that was taken and is not beaten any more;
* **`keep_forall_iff`**  so it satisfies `P` if and only if every element that was taken satisfies `P`, or is
                         beaten by a later one.
-/

namespace Keep
variable {α : Type*} (beats : α → α → Prop) [DecidableRel beats]

/-- the scan, with the element that is kept so far -/
def keep : Option α → List α → Option α
  | best, [] => best
  | none, v :: l => keep (some v) l
  | some b, v :: l => keep (if beats b v then some v else some b) l

/-- `v` beats every element before it that the scan takes; the list of these elements begins with the last one -/
def Kept : List α → α → Prop
  | [], _ => True
  | u :: front, v => (Kept front u → beats u v) ∧ Kept front v

instance decidableKept : (front : List α) → (v : α) → Decidable (Kept beats front v)
  | [], _ => isTrue trivial
  | u :: front, v =>
    haveI := decidableKept front u
    haveI := decidableKept front v
    inferInstanceAs (Decidable ((Kept beats front u → beats u v) ∧ Kept beats front v))

variable {beats}

theorem keep_append (best : Option α) (l r : List α) :
    keep beats best (l ++ r) = keep beats (keep beats best l) r := by
  induction l generalizing best with
  | nil => rw [List.nil_append, keep]
  | cons v l ih =>
    cases best with
    | none => exact ih _
    | some b => exact ih _

theorem keep_concat_of_none {l : List α} (h : keep beats none l = none) (v : α) :
    keep beats none (l ++ [v]) = some v := by
  rw [keep_append, h]
  rfl

theorem keep_concat_of_some {l : List α} {b : α} (h : keep beats none l = some b) (v : α) :
    keep beats none (l ++ [v]) = if beats b v then some v else some b := by
  rw [keep_append, h]
  rfl

theorem keep_eq_none_iff {l : List α} : keep beats none l = none ↔ l = [] := by
  induction l using List.reverseRecOn with
  | nil => exact iff_of_true rfl rfl
  | append_singleton l v ih =>
    refine iff_of_false (fun h => ?_) (by simp)
    cases hl : keep beats none l with
    | none =>
      rw [keep_concat_of_none hl] at h
      exact nomatch h
    | some b =>
      rw [keep_concat_of_some hl] at h
      split_ifs at h

section
variable [IsTrans α beats]

/-- the scan takes what beats the element that is kept so far -/
theorem beats_iff_kept {l : List α} {b : α} (h : keep beats none l = some b) (v : α) :
    beats b v ↔ Kept beats l.reverse v := by
  induction l using List.reverseRecOn generalizing b v with
  | nil => exact nomatch h
  | append_singleton l u ih =>
    rw [List.reverse_append, List.reverse_singleton, List.singleton_append, Kept]
    cases hl : keep beats none l with
    | none =>
      rw [keep_concat_of_none hl] at h
      obtain rfl := Option.some.inj h
      rw [keep_eq_none_iff.mp hl]
      exact ⟨fun hb => ⟨fun _ => hb, trivial⟩, fun hk => hk.1 trivial⟩
    | some c =>
      rw [keep_concat_of_some hl] at h
      rw [← ih hl u, ← ih hl v]
      split_ifs at h with hcu
      · obtain rfl := Option.some.inj h
        exact ⟨fun hb => ⟨fun _ => hb, trans_of beats hcu hb⟩, fun hk => hk.1 hcu⟩
      · obtain rfl := Option.some.inj h
        exact ⟨fun hb => ⟨fun hc => absurd hc hcu, hb⟩, fun hk => hk.2⟩

theorem keep_eq_some_iff {l : List α} {b : α} : keep beats none l = some b ↔
    ∃ front back, l = front ++ b :: back ∧ Kept beats front.reverse b ∧ ∀ v ∈ back, ¬ beats b v := by
  induction l using List.reverseRecOn generalizing b with
  | nil =>
    refine iff_of_false (fun h => nomatch h) ?_
    rintro ⟨front, back, h, -⟩
    exact absurd h.symm (by simp)
  | append_singleton l u ih =>
    constructor
    · intro h
      cases hl : keep beats none l with
      | none =>
        rw [keep_concat_of_none hl] at h
        obtain rfl := Option.some.inj h
        rw [keep_eq_none_iff.mp hl]
        exact ⟨[], [], rfl, trivial, fun v hv => absurd hv List.not_mem_nil⟩
      | some c =>
        rw [keep_concat_of_some hl] at h
        split_ifs at h with hcu
        · obtain rfl := Option.some.inj h
          exact ⟨l, [], rfl, (beats_iff_kept hl u).mp hcu, fun v hv => absurd hv List.not_mem_nil⟩
        · obtain rfl := Option.some.inj h
          obtain ⟨front, back, rfl, hkept, hback⟩ := ih.mp hl
          refine ⟨front, back ++ [u], by simp, hkept, fun v hv => ?_⟩
          rcases List.mem_append.mp hv with hv | hv
          · exact hback v hv
          · rwa [List.mem_singleton.mp hv]
    · rintro ⟨front, back, h, hkept, hback⟩
      rcases List.eq_nil_or_concat back with rfl | ⟨back, w, rfl⟩
      · -- the last element is the one
        obtain ⟨rfl, hu⟩ := List.append_inj' h rfl
        obtain rfl := (List.cons.inj hu).1
        cases hl : keep beats none l with
        | none => exact keep_concat_of_none hl u
        | some c => rw [keep_concat_of_some hl, if_pos ((beats_iff_kept hl u).mpr hkept)]
      · rw [List.concat_eq_append] at hback
        rw [List.concat_eq_append, ← List.cons_append, ← List.append_assoc] at h
        obtain ⟨rfl, hw⟩ := List.append_inj' h rfl
        obtain rfl := (List.cons.inj hw).1
        have hl := ih.mpr ⟨front, back, rfl, hkept, fun v hv => hback v (List.mem_append_left _ hv)⟩
        rw [keep_concat_of_some hl, if_neg (hback u (by simp))]

/-- **What is kept at the end satisfies `P`** if and only if every element that is taken does, unless a later
one beats it. -/
theorem keep_forall_iff {l : List α} {P : α → Prop} : (∀ b, keep beats none l = some b → P b) ↔
    ∀ front r back, l = front ++ r :: back → Kept beats front.reverse r →
      P r ∨ ∃ v ∈ back, beats r v := by
  constructor
  · intro h front r back hl hkept
    by_cases hbeaten : ∃ v ∈ back, beats r v
    · exact Or.inr hbeaten
    · exact Or.inl (h r (keep_eq_some_iff.mpr ⟨front, back, hl, hkept, fun v hv hb => hbeaten ⟨v, hv, hb⟩⟩))
  · intro h b hb
    obtain ⟨front, back, hl, hkept, hback⟩ := keep_eq_some_iff.mp hb
    exact (h front b back hl hkept).resolve_right fun ⟨v, hv, hbv⟩ => hback v hv hbv

end

theorem mem_of_keep {l : List α} {b : α} (h : keep beats none l = some b) : b ∈ l := by
  induction l using List.reverseRecOn generalizing b with
  | nil => exact nomatch h
  | append_singleton l u ih =>
    cases hl : keep beats none l with
    | none =>
      rw [keep_concat_of_none hl] at h
      obtain rfl := Option.some.inj h
      exact List.mem_concat_self
    | some c =>
      rw [keep_concat_of_some hl] at h
      split_ifs at h
      · obtain rfl := Option.some.inj h
        exact List.mem_concat_self
      · obtain rfl := Option.some.inj h
        exact List.mem_append_left _ (ih hl)

end Keep
