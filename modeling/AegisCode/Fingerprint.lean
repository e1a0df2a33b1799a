import AegisCode.Action

/-!
# What a fingerprint says

JSON values that are equal up to the order of the keys of their objects, and
the fingerprint as the exact test for that: values of different types are never
equal, so `1`, `1.0` and `true` are told apart.
-/
namespace AegisCode

namespace Json

mutual
/-- Equal as JSON values, the order of keys at every depth left aside. -/
inductive Equal : Json → Json → Prop
  | null : Equal .null .null
  | bool (b : Bool) : Equal (.bool b) (.bool b)
  | int (n : ℤ) : Equal (.int n) (.int n)
  | float (f : FloatLit) : Equal (.float f) (.float f)
  | str (s : Str) : Equal (.str s) (.str s)
  | arr {xs ys : List Json} : EqualElems xs ys → Equal (.arr xs) (.arr ys)
  | obj {ms ns ns' : List (Str × Json)} : EqualMembers ms ns' → ns'.Perm ns →
      Equal (.obj ms) (.obj ns)

inductive EqualElems : List Json → List Json → Prop
  | nil : EqualElems [] []
  | cons {x y : Json} {xs ys : List Json} : Equal x y → EqualElems xs ys →
      EqualElems (x :: xs) (y :: ys)

inductive EqualMembers : List (Str × Json) → List (Str × Json) → Prop
  | nil : EqualMembers [] []
  | cons {v w : Json} {ms ns : List (Str × Json)} (k : Str) : Equal v w → EqualMembers ms ns →
      EqualMembers ((k, v) :: ms) ((k, w) :: ns)
end

mutual
/-- No object has a key twice. -/
def DistinctKeys : Json → Prop
  | .arr xs => DistinctKeysElems xs
  | .obj ms => (ms.map Prod.fst).Nodup ∧ DistinctKeysMembers ms
  | .null => True
  | .bool _ => True
  | .int _ => True
  | .float _ => True
  | .str _ => True

def DistinctKeysElems : List Json → Prop
  | [] => True
  | x :: xs => DistinctKeys x ∧ DistinctKeysElems xs

def DistinctKeysMembers : List (Str × Json) → Prop
  | [] => True
  | (_, v) :: ms => DistinctKeys v ∧ DistinctKeysMembers ms
end

theorem canonMembers_eq_map (ms : List (Str × Json)) :
    canonMembers ms = ms.map fun m => (m.1, canon m.2) := by
  induction ms with
  | nil => rfl
  | cons m ms ih =>
    rw [canonMembers, ih]
    rfl

theorem map_fst_canonMembers (ms : List (Str × Json)) :
    (canonMembers ms).map Prod.fst = ms.map Prod.fst := by
  rw [canonMembers_eq_map, List.map_map]
  rfl

/-- Members with distinct keys have one sorted order. -/
theorem insertionSort_eq {ms ns : List (Str × Json)} (hnodup : (ms.map Prod.fst).Nodup)
    (hperm : ms.Perm ns) : ms.insertionSort (fun a b => a.1 ≤ b.1) =
      ns.insertionSort fun a b => a.1 ≤ b.1 := by
  have hsorted : ∀ l : List (Str × Json),
      (l.insertionSort fun a b => a.1 ≤ b.1).Pairwise fun a b => a.1 ≤ b.1 :=
    fun l => List.pairwise_insertionSort (fun a b => a.1 ≤ b.1) l
  refine List.Perm.eq_of_pairwise (fun a b ha hb hab hba => ?_) (hsorted ms) (hsorted ns) ?_
  · have ha' : a ∈ ms := (List.mem_insertionSort _).mp ha
    have hb' : b ∈ ms := hperm.mem_iff.mpr ((List.mem_insertionSort _).mp hb)
    exact List.inj_on_of_nodup_map hnodup ha' hb' (le_antisymm hab hba)
  · exact (List.perm_insertionSort _ ms).trans
      (hperm.trans (List.perm_insertionSort _ ns).symm)

mutual
theorem canon_eq_of_equal : ∀ {v w : Json}, Equal v w → DistinctKeys v → canon v = canon w
  | _, _, .null, _ => rfl
  | _, _, .bool _, _ => rfl
  | _, _, .int _, _ => rfl
  | _, _, .float _, _ => rfl
  | _, _, .str _, _ => rfl
  | _, _, .arr h, hv => by
      rw [DistinctKeys] at hv
      rw [canon, canon, canonElems_eq_of_equal h hv]
  | _, _, @Equal.obj ms ns ns' h hperm, hv => by
      rw [DistinctKeys] at hv
      have hmembers := canonMembers_eq_of_equal h hv.2
      have hkeys : ((canonMembers ms).map Prod.fst).Nodup := by
        rw [map_fst_canonMembers]
        exact hv.1
      have hperm' : (canonMembers ms).Perm (canonMembers ns) := by
        rw [hmembers, canonMembers_eq_map, canonMembers_eq_map]
        exact hperm.map _
      rw [canon, canon, insertionSort_eq hkeys hperm']

theorem canonElems_eq_of_equal : ∀ {xs ys : List Json}, EqualElems xs ys → DistinctKeysElems xs →
    canonElems xs = canonElems ys
  | _, _, .nil, _ => rfl
  | _, _, .cons h hs, hv => by
      rw [DistinctKeysElems] at hv
      rw [canonElems, canonElems, canon_eq_of_equal h hv.1, canonElems_eq_of_equal hs hv.2]

theorem canonMembers_eq_of_equal : ∀ {ms ns : List (Str × Json)}, EqualMembers ms ns →
    DistinctKeysMembers ms → canonMembers ms = canonMembers ns
  | _, _, .nil, _ => rfl
  | _, _, .cons k h hs, hv => by
      rw [DistinctKeysMembers] at hv
      rw [canonMembers, canonMembers, canon_eq_of_equal h hv.1, canonMembers_eq_of_equal hs hv.2]
end

mutual
theorem equal_of_canon_eq : ∀ (v : Json) {w : Json}, canon v = canon w → Equal v w
  | .null, w, h => by
      cases w <;> simp [canon] at h
      exact .null
  | .bool b, w, h => by
      cases w <;> simp [canon] at h
      exact h ▸ .bool b
  | .int n, w, h => by
      cases w <;> simp [canon] at h
      exact h ▸ .int n
  | .float f, w, h => by
      cases w <;> simp [canon] at h
      exact h ▸ .float f
  | .str s, w, h => by
      cases w <;> simp [canon] at h
      exact h ▸ .str s
  | .arr xs, w, h => by
      cases w <;> simp [canon] at h
      exact .arr (equalElems_of_canon_eq xs h)
  | .obj ms, w, h => by
      cases w with
      | obj ns =>
        simp only [canon, Json.obj.injEq] at h
        have hperm : (canonMembers ms).Perm (canonMembers ns) := by
          refine (List.perm_insertionSort (fun a b => a.1 ≤ b.1) _).symm.trans ?_
          rw [h]
          exact List.perm_insertionSort _ _
        -- the members of the right side in the order of the left side
        have hns :
        List.Forall₂ (fun (m : Str × Json) n => m = (n.1, canon n.2)) (canonMembers ns) ns := by
          rw [canonMembers_eq_map, List.forall₂_map_left_iff]
          exact List.forall₂_same.mpr fun _ _ => rfl
        obtain ⟨ns', hns', hperm'⟩ := List.perm_comp_forall₂ hperm hns
        exact .obj (equalMembers_of_canon_eq ms hns') hperm'
      | _ => simp [canon] at h

theorem equalElems_of_canon_eq : ∀ (xs : List Json) {ys : List Json},
    canonElems xs = canonElems ys → EqualElems xs ys
  | [], ys, h => by
      cases ys with
      | nil => exact .nil
      | cons y ys => simp [canonElems] at h
  | x :: xs, ys, h => by
      cases ys with
      | nil => simp [canonElems] at h
      | cons y ys =>
        rw [canonElems, canonElems] at h
        obtain ⟨hx, hxs⟩ := List.cons.inj h
        exact .cons (equal_of_canon_eq x hx) (equalElems_of_canon_eq xs hxs)

theorem equalMembers_of_canon_eq : ∀ (ms : List (Str × Json)) {ns : List (Str × Json)},
    List.Forall₂ (fun (m : Str × Json) n => m = (n.1, canon n.2)) (canonMembers ms) ns →
    EqualMembers ms ns
  | [], ns, h => by
      rw [canonMembers] at h
      cases h
      exact .nil
  | (k, v) :: ms, ns, h => by
      rw [canonMembers] at h
      cases h with
      | @cons _ n _ ns heq hs =>
        obtain ⟨rfl, hv⟩ := Prod.mk.inj heq
        exact .cons _ (equal_of_canon_eq v hv) (equalMembers_of_canon_eq ms hs)
end

/-- Sorting the keys decides equality of values without repeated keys. -/
theorem same_iff_equal {v w : Json} (hv : DistinctKeys v) : Same v w ↔ Equal v w :=
  ⟨equal_of_canon_eq v, fun h => canon_eq_of_equal h hv⟩

end Json

/-- A fingerprint approves exactly the actions of the same tool with equal arguments. -/
theorem fingerprint_exact {H : Digest} {a b : Action}
    (hcoll : H.CollisionFree {canonicalText a, canonicalText b})
    (ha : Json.DistinctKeys (.obj a.arguments)) :
    (fingerprint H a = fingerprint H b ↔
        a.tool = b.tool ∧ Json.Equal (.obj a.arguments) (.obj b.arguments)) ∧
      (validateResume H (fingerprint H a) b = .ok () ↔
        a.tool = b.tool ∧ Json.Equal (.obj a.arguments) (.obj b.arguments)) := by
  have hfp : fingerprint H a = fingerprint H b ↔
      a.tool = b.tool ∧ Json.Equal (.obj a.arguments) (.obj b.arguments) := by
    rw [fingerprint_eq_iff hcoll, SameCall, Json.same_iff_equal ha]
  refine ⟨hfp, ?_⟩
  rw [← hfp, validateResume]
  by_cases h : fingerprint H b = fingerprint H a
  · rw [if_neg (not_not.mpr h)]
    exact ⟨fun _ => h.symm, fun _ => rfl⟩
  · rw [if_pos h]
    constructor
    · intro hok
      cases hok
    · exact fun heq => absurd heq.symm h

/-- The arguments of a write in two orders. -/
def writeInOrder : Action := ⟨"write_file", [("path", .str "a"), ("content", .str "x")], none, none⟩

def writeReordered : Action :=
  ⟨"write_file", [("content", .str "x"), ("path", .str "a")], some "again", none⟩

theorem writeDigest_length :
    "8e03b64853ec5322aa588eeb7ed565a9dac86c41f09d428823897c8bb4efdcb8".toList.length = 64 := by
  decide

def writeDigest : Digest :=
  .single (canonicalText writeInOrder)
    "8e03b64853ec5322aa588eeb7ed565a9dac86c41f09d428823897c8bb4efdcb8" writeDigest_length

theorem fingerprint_exact_reordered :
    (fingerprint writeDigest writeInOrder = fingerprint writeDigest writeReordered ↔
        writeInOrder.tool = writeReordered.tool ∧
          Json.Equal (.obj writeInOrder.arguments) (.obj writeReordered.arguments)) ∧
      (validateResume writeDigest (fingerprint writeDigest writeInOrder) writeReordered = .ok () ↔
        writeInOrder.tool = writeReordered.tool ∧
          Json.Equal (.obj writeInOrder.arguments) (.obj writeReordered.arguments)) := by
  have htext : canonicalText writeReordered = canonicalText writeInOrder := by decide
  refine fingerprint_exact ?_ ⟨by decide, trivial, trivial, trivial⟩
  rw [htext]
  simp [Digest.CollisionFree]

end AegisCode
