import HapAndroid.Highlight.Effects

/-!
# Tables that are ahead of others

Two files that are the same up to some line can be compared by what their commands leave behind.
`Tables.Behind` counts the keywords and the patterns, and asks that the table that is ahead finds
all the groups that the other one finds; so a pattern that is stored in the one is stored in the
other.  It is kept by effects that do the same or more of it (`Effect.Le.behind`).
-/

namespace HapAndroid.Highlight

/-- The keywords and the patterns, counted. -/
def Tables.count (t : Tables) : Nat := t.keywtab.length + t.keywtabIc.length + t.patterns.length

/-- `t'` has `k` keywords or patterns more, and knows all the groups. -/
structure Tables.Behind (k : Nat) (t t' : Tables) : Prop where
  synCase : t'.synCase = t.synCase
  known : ∀ name, nameId t.groups name ≠ 0 → nameId t'.groups name ≠ 0
  count : t.count + k ≤ t'.count

/-- An effect that is the same, or more of the same. -/
inductive Effect.Le : Effect → Effect → Prop where
  | refl (e : Effect) : Le e e
  | pattern (group : Bytes) (pat : SynPat) : Le .nothing (.addPattern group pat)
  | group (group : Bytes) : Le .nothing (.addKeywords group [])
  | keywords {group : Bytes} {ws ws' : List Bytes} (h : ws.length ≤ ws'.length) :
      Le (.addKeywords group ws) (.addKeywords group ws')

/-- An effect that counts more in these tables. -/
inductive Effect.Lt (t : Tables) : Effect → Effect → Prop where
  | pattern {group : Bytes} (h : HasGroup t.groups group) (pat : SynPat) :
      Lt t .nothing (.addPattern group pat)
  | keywords {group : Bytes} {ws ws' : List Bytes} (h : ws.length < ws'.length) :
      Lt t (.addKeywords group ws) (.addKeywords group ws')

section
variable {name : Bytes} {t t' : Tables} {k : Nat}

namespace Tables

theorem count_foldl (id : Nat) (ws : List Bytes) (t : Tables) :
    (ws.foldl (addKeyword id) t).synCase = t.synCase ∧
      (ws.foldl (addKeyword id) t).groups = t.groups ∧
      (ws.foldl (addKeyword id) t).count = t.count + ws.length := by
  induction ws generalizing t with
  | nil => exact ⟨rfl, rfl, rfl⟩
  | cons w ws ih =>
      obtain ⟨hcase, hgroups, hcount⟩ := ih (addKeyword id t w)
      rw [List.foldl_cons, hcase, hgroups, hcount, List.length_cons, addKeyword]
      split
      all_goals
        refine ⟨rfl, rfl, ?_⟩
        simp only [count, List.length_cons]
        omega

theorem count_addPattern (id : Nat) (t : Tables) (pat : SynPat) :
    (addPattern id t pat).synCase = t.synCase ∧ (addPattern id t pat).groups = t.groups ∧
      (addPattern id t pat).count = t.count + if id = 0 then 0 else 1 := by
  unfold addPattern
  split
  · exact ⟨rfl, rfl, rfl⟩
  · refine ⟨rfl, rfl, ?_⟩
    simp only [count, List.length_append, List.length_singleton]
    omega

theorem Behind.withGroup (h : Behind k t t') (group : Bytes) :
    Behind k (t.withGroup group) (t'.withGroup group) :=
  ⟨h.synCase, nameId_checkGroup_mono h.known group, h.count⟩

theorem behind_withGroup (t : Tables) (group : Bytes) : Behind 0 t (t.withGroup group) :=
  ⟨rfl, fun _ => nameId_mono (subset_checkGroup _ _), Nat.le_refl _⟩

theorem Behind.trans {t'' : Tables} {k' : Nat} (h : Behind k t t') (h' : Behind k' t' t'') :
    Behind (k + k') t t'' :=
  ⟨h'.synCase.trans h.synCase, fun name hid => h'.known name (h.known name hid), by
    have := h.count
    have := h'.count
    omega⟩

/-- A group that has an id keeps it. -/
theorem Behind.hasGroup (h : Behind k t t') (hgroup : HasGroup t.groups name) :
    HasGroup t'.groups name :=
  hgroup.imp (h.known name) id

theorem Behind.keywords (h : Behind k t t') (group : Bytes) {ws ws' : List Bytes} {n : Nat}
    (hle : ws.length + n ≤ ws'.length) :
    Behind (k + n) (t.apply (.addKeywords group ws)) (t'.apply (.addKeywords group ws')) := by
  have hgroup := h.withGroup group
  obtain ⟨hcase, hgroups, hcount⟩ :=
    count_foldl (checkGroup t.groups group).1 ws (t.withGroup group)
  obtain ⟨hcase', hgroups', hcount'⟩ :=
    count_foldl (checkGroup t'.groups group).1 ws' (t'.withGroup group)
  have hle' := hgroup.count
  refine ⟨?_, ?_, ?_⟩
  · rw [apply, apply, hcase, hcase', hgroup.synCase]
  · rw [apply, apply, hgroups, hgroups']
    exact hgroup.known
  · rw [apply, apply, hcount, hcount']
    omega

theorem Behind.pattern (h : Behind k t t') (group : Bytes) (pat : SynPat) :
    Behind k (t.apply (.addPattern group pat)) (t'.apply (.addPattern group pat)) := by
  have hgroup := h.withGroup group
  obtain ⟨hcase, hgroups, hcount⟩ :=
    count_addPattern (checkGroup t.groups group).1 (t.withGroup group) pat
  obtain ⟨hcase', hgroups', hcount'⟩ :=
    count_addPattern (checkGroup t'.groups group).1 (t'.withGroup group) pat
  have hle := hgroup.count
  refine ⟨?_, ?_, ?_⟩
  · rw [apply, apply, hcase, hcase', hgroup.synCase]
  · rw [apply, apply, hgroups, hgroups']
    exact hgroup.known
  · rw [apply, apply, hcount, hcount']
    by_cases hhas : HasGroup t.groups group
    · rw [if_neg (checkGroup_fst_ne_zero hhas), if_neg (checkGroup_fst_ne_zero (h.hasGroup hhas))]
      omega
    · rw [checkGroup_of_not_hasGroup hhas, if_pos rfl]
      omega

/-- A pattern puts the tables ahead, by one if its group has an id. -/
theorem behind_pattern (t : Tables) (group : Bytes) (pat : SynPat) :
    Behind (if (checkGroup t.groups group).1 = 0 then 0 else 1) t
      (t.apply (.addPattern group pat)) := by
  obtain ⟨hcase, hgroups, hcount⟩ :=
    count_addPattern (checkGroup t.groups group).1 (t.withGroup group) pat
  refine ⟨hcase, ?_, Nat.le_of_eq hcount.symm⟩
  rw [apply, hgroups]
  exact (behind_withGroup t group).known

theorem Behind.mono {k' : Nat} (h : Behind k t t') (hle : k' ≤ k) : Behind k' t t' :=
  ⟨h.synCase, h.known, Nat.le_trans (Nat.add_le_add_left hle _) h.count⟩

end Tables

variable {e e' : Effect}

/-- Tables that are ahead stay ahead when at least as much is done to them. -/
theorem Effect.Le.behind (he : Le e e') (h : t.Behind k t') :
    (t.apply e).Behind k (t'.apply e') := by
  cases he with
  | refl =>
      cases e with
      | nothing => exact h
      | setCase ignore => exact ⟨rfl, h.known, h.count⟩
      | addKeywords group ws => exact h.keywords (n := 0) group (Nat.le_refl _)
      | addPattern group pat => exact h.pattern group pat
      | link group target =>
          have hgroup := h.withGroup group
          refine ⟨hgroup.synCase, fun name hid => ?_, hgroup.count⟩
          exact (nameId_linkGroups ..).mpr (hgroup.known name ((nameId_linkGroups ..).mp hid))
  | pattern group pat => exact (h.trans (t'.behind_pattern group pat)).mono (Nat.le_add_right ..)
  | group group => exact h.trans (t'.behind_withGroup group)
  | keywords hle => exact h.keywords (n := 0) _ hle

/-- An effect that counts more puts the tables ahead. -/
theorem Effect.Lt.behind (he : Lt t e e') : (t.apply e).Behind 1 (t.apply e') := by
  have hrefl : t.Behind 0 t := ⟨rfl, fun _ => id, Nat.le_refl _⟩
  cases he with
  | @pattern group hgroup pat =>
      have h := t.behind_pattern group pat
      rwa [if_neg (checkGroup_fst_ne_zero hgroup)] at h
  | keywords hlt => exact hrefl.keywords (n := 1) _ hlt

end

end HapAndroid.Highlight
