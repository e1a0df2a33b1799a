import Mathlib.Tactic

/-!
# Hash-chained logs

A record stores its entry, the link of the record before it and its own link,
which `link` computes from the two. The records of an intact log determine each
other backwards: where `link` does not collide, the last link of an intact log
determines the whole log, its length included.
-/
namespace AegisCode.HashChain

/-- One record of a log over the entries `E`, chained by links in `K`. -/
structure Record (K E : Type) where
  prev : K
  entry : E
  hash : K

variable {K E : Type} (link : K → E → K)

/-- Every record stores the link before it and the link computed from it. -/
def Intact : K → List (Record K E) → Prop
  | _, [] => True
  | k, r :: rs => r.prev = k ∧ r.hash = link k r.entry ∧ Intact r.hash rs

/-- The link that the next record of the log must store. -/
def tip (k : K) (rs : List (Record K E)) : K := rs.foldl (fun _ r => r.hash) k

/-- The arguments `link` is applied to while a log is checked. -/
def linked (k : K) (rs : List (Record K E)) : List (K × E) :=
  match rs with
  | [] => []
  | r :: rs => (k, r.entry) :: linked r.hash rs

variable {link}

@[simp] theorem tip_nil (k : K) : tip k ([] : List (Record K E)) = k := rfl

@[simp] theorem tip_append_singleton (k : K) (rs : List (Record K E)) (r : Record K E) :
    tip k (rs ++ [r]) = r.hash := by simp [tip]

theorem intact_append_singleton {k : K} {rs : List (Record K E)} {r : Record K E} :
    Intact link k (rs ++ [r]) ↔
      Intact link k rs ∧ r.prev = tip k rs ∧ r.hash = link (tip k rs) r.entry := by
  induction rs generalizing k with
  | nil => simp [Intact]
  | cons a rs ih =>
    simp only [List.cons_append, Intact, ih]
    simp [tip, and_assoc]

theorem linked_append_singleton (k : K) (rs : List (Record K E)) (r : Record K E) :
    linked k (rs ++ [r]) = linked k rs ++ [(tip k rs, r.entry)] := by
  induction rs generalizing k with
  | nil => rfl
  | cons a rs ih =>
    simp only [List.cons_append, linked, ih]
    rfl

theorem intact_append {k : K} {rs rs' : List (Record K E)} :
    Intact link k (rs ++ rs') ↔ Intact link k rs ∧ Intact link (tip k rs) rs' := by
  induction rs generalizing k with
  | nil => simp [Intact]
  | cons r rs ih =>
    simp only [List.cons_append, Intact, ih]
    simp [tip, and_assoc]

theorem linked_append (k : K) (rs rs' : List (Record K E)) :
    linked k (rs ++ rs') = linked k rs ++ linked (tip k rs) rs' := by
  induction rs generalizing k with
  | nil => rfl
  | cons r rs ih =>
    simp only [List.cons_append, linked, ih]
    rfl

/-- Intact logs with the same last link are equal, as long as no two of the
links computed in them collide and none of them is the first link `k`. -/
theorem intact_tip_inj {k : K} {rs rs' : List (Record K E)}
    (hinj : Set.InjOn (fun p : K × E => link p.1 p.2) {p | p ∈ linked k rs ∨ p ∈ linked k rs'})
    (hfresh : ∀ p, p ∈ linked k rs ∨ p ∈ linked k rs' → link p.1 p.2 ≠ k)
    (h : Intact link k rs) (h' : Intact link k rs') (htip : tip k rs = tip k rs') : rs = rs' := by
  induction rs using List.reverseRecOn generalizing rs' with
  | nil =>
    rcases List.eq_nil_or_concat' rs' with rfl | ⟨rs', r', rfl⟩
    · rfl
    · obtain ⟨_, _, hhash⟩ := intact_append_singleton.mp h'
      refine absurd ?_ (hfresh (tip k rs', r'.entry) (.inr (by simp [linked_append_singleton])))
      rw [← hhash, ← tip_append_singleton k rs' r', ← htip, tip_nil]
  | append_singleton rs r ih =>
    obtain ⟨hrs, hprev, hhash⟩ := intact_append_singleton.mp h
    rcases List.eq_nil_or_concat' rs' with rfl | ⟨rs', r', rfl⟩
    · refine absurd ?_ (hfresh (tip k rs, r.entry) (.inl (by simp [linked_append_singleton])))
      rw [← hhash, ← tip_append_singleton k rs r, htip, tip_nil]
    · obtain ⟨hrs', hprev', hhash'⟩ := intact_append_singleton.mp h'
      have hlink : link (tip k rs) r.entry = link (tip k rs') r'.entry := by
        rw [← hhash, ← hhash', ← tip_append_singleton k rs r, htip, tip_append_singleton]
      have hpair : (tip k rs, r.entry) = (tip k rs', r'.entry) :=
        hinj (.inl (by simp [linked_append_singleton])) (.inr (by simp [linked_append_singleton]))
          hlink
      obtain ⟨htips, hentry⟩ := Prod.mk.inj hpair
      have heq : rs = rs' := by
        refine ih (hinj.mono ?_) (fun p hp => hfresh p ?_) hrs hrs' htips
        · rintro p (hp | hp)
          · exact .inl (by simp [linked_append_singleton, hp])
          · exact .inr (by simp [linked_append_singleton, hp])
        · rcases hp with hp | hp
          · exact .inl (by simp [linked_append_singleton, hp])
          · exact .inr (by simp [linked_append_singleton, hp])
      have hrec : r = r' := by
        obtain ⟨p, e, x⟩ := r
        obtain ⟨p', e', x'⟩ := r'
        simp only at hprev hprev' hhash hhash' hentry
        rw [hprev, hprev', htips, hentry, hhash, hhash', hlink]
      rw [heq, hrec]

end AegisCode.HashChain
