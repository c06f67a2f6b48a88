import Mathlib.Algebra.GroupWithZero.Nat
import HapAndroid.Lib.FileTree

/-!
# What lies below a path

The nodes below a path are its children and what lies below those, each once
(`below_perm`).  So a sum over all of them is the sum over the children of the value of
the child and the sum below it (`sum_below`), which is how a program that walks a tree
computes it.
-/

namespace FileTree

variable {ν δ : Type} [DecidableEq ν] (t : FileTree ν δ)

/-- The paths of the nodes below a path. -/
def below (p : List ν) : List (List ν) :=
  t.paths.dedup.filter fun q => decide (p <+: q) && decide (q ≠ p) && t.existsAt q

theorem mem_below {p q : List ν} :
    q ∈ t.below p ↔ ∃ n r, q = p ++ n :: r ∧ t.node q ≠ none := by
  simp only [below, List.mem_filter, List.mem_dedup, Bool.and_eq_true, decide_eq_true_eq,
    existsAt_iff]
  constructor
  · rintro ⟨-, ⟨⟨r, rfl⟩, hne⟩, hq⟩
    cases r with
    | nil => exact absurd (List.append_nil p) hne
    | cons n r => exact ⟨n, r, rfl, hq⟩
  · rintro ⟨n, r, rfl, hq⟩
    exact ⟨t.mem_paths hq, ⟨List.prefix_append p (n :: r), by simp⟩, hq⟩

theorem nodup_below (p : List ν) : (t.below p).Nodup := (List.nodup_dedup _).filter _

theorem mem_flatMap_below {p q : List ν} :
    q ∈ (t.children p).flatMap (fun c => c :: t.below c) ↔ q ∈ t.below p := by
  simp only [List.mem_flatMap, List.mem_cons, mem_below, mem_children]
  constructor
  · rintro ⟨c, ⟨n, rfl, hc⟩, rfl | ⟨m, r, rfl, hq⟩⟩
    · exact ⟨n, [], rfl, hc⟩
    · exact ⟨n, m :: r, by simp, hq⟩
  · rintro ⟨n, r, rfl, hq⟩
    have hsplit : p ++ n :: r = p ++ [n] ++ r := by simp
    refine ⟨p ++ [n], ⟨n, rfl, t.exists_of_append (hsplit ▸ hq)⟩, ?_⟩
    cases r with
    | nil => exact .inl rfl
    | cons m r => exact .inr ⟨m, r, hsplit, hq⟩

theorem nodup_flatMap_below (p : List ν) :
    ((t.children p).flatMap fun c => c :: t.below c).Nodup := by
  rw [List.nodup_flatMap]
  constructor
  · intro c hc
    refine List.nodup_cons.mpr ⟨fun hmem => ?_, t.nodup_below c⟩
    obtain ⟨n, r, hself, -⟩ := t.mem_below.mp hmem
    simp at hself
  · -- A path below two children starts with the same name.
    refine (t.nodup_children p).imp_of_mem fun {c d} hc hd hne => ?_
    obtain ⟨n, rfl, -⟩ := t.mem_children.mp hc
    obtain ⟨m, rfl, -⟩ := t.mem_children.mp hd
    have hstart {k : ν} {q : List ν} (hq : q ∈ (p ++ [k]) :: t.below (p ++ [k])) :
        p ++ [k] <+: q := by
      rcases List.mem_cons.mp hq with rfl | hq
      · exact List.prefix_rfl
      · obtain ⟨l, r, rfl, -⟩ := t.mem_below.mp hq
        exact List.prefix_append _ _
    intro q hqc hqd
    have heq := List.prefix_of_prefix_length_le (hstart hqc) (hstart hqd) (by simp)
    exact hne (heq.eq_of_length (by simp))

/-- Below a path lie its children and what lies below them. -/
theorem below_perm (p : List ν) :
    (t.below p).Perm ((t.children p).flatMap fun c => c :: t.below c) :=
  (List.perm_ext_iff_of_nodup (t.nodup_below p) (t.nodup_flatMap_below p)).mpr
    fun _ => t.mem_flatMap_below.symm

theorem sum_below (w : List ν → Nat) (p : List ν) :
    ((t.below p).map w).sum =
      ((t.children p).map fun c => w c + ((t.below c).map w).sum).sum := by
  rw [((t.below_perm p).map w).sum_nat, List.map_flatMap]
  generalize t.children p = cs
  induction cs with
  | nil => rfl
  | cons c cs ih =>
      rw [List.flatMap_cons, List.sum_append, ih, List.map_cons, List.sum_cons, List.map_cons,
        List.sum_cons]

theorem below_of_not_dir {p : List ν} (h : t.node p ≠ some .dir) : t.below p = [] := by
  rw [List.eq_nil_iff_forall_not_mem]
  intro q hq
  rw [← t.mem_flatMap_below, t.children_of_not_dir h] at hq
  cases hq

/-! ## Depth -/

/-- The number of levels below a path. -/
def depthBelow (p : List ν) : Nat := ((t.below p).map fun q => q.length - p.length).foldr max 0

theorem depthBelow_le_iff {p : List ν} {n : Nat} :
    t.depthBelow p ≤ n ↔ ∀ q ∈ t.below p, q.length - p.length ≤ n := by
  rw [depthBelow]
  generalize t.below p = qs
  induction qs with
  | nil => simp
  | cons q qs ih =>
      rw [List.map_cons, List.foldr_cons, Nat.max_le, ih, List.forall_mem_cons]

/-- A child is one level down. -/
theorem depthBelow_child {p c : List ν} (hc : c ∈ t.children p) :
    t.depthBelow c + 1 ≤ t.depthBelow p := by
  have hall := t.depthBelow_le_iff.mp (Nat.le_refl (t.depthBelow p))
  have hmem {q : List ν} (hq : q ∈ c :: t.below c) : q ∈ t.below p :=
    t.mem_flatMap_below.mp (List.mem_flatMap.mpr ⟨c, hc, hq⟩)
  obtain ⟨n, rfl, hn⟩ := t.mem_children.mp hc
  have hone := hall _ (hmem List.mem_cons_self)
  rw [List.length_append, List.length_singleton] at hone
  have hle : t.depthBelow (p ++ [n]) ≤ t.depthBelow p - 1 := by
    rw [depthBelow_le_iff]
    intro q hq
    have hq' := hall q (hmem (List.mem_cons_of_mem _ hq))
    obtain ⟨m, r, rfl, -⟩ := t.mem_below.mp hq
    simp only [List.length_append, List.length_cons, List.length_nil] at hq' ⊢
    omega
  omega

end FileTree
