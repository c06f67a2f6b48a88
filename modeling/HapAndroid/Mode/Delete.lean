import HapAndroid.Mode.System

/-!
# What deleting a mode does to the other preferences

The preferences hold the list of modes and the settings side by side.  The
delete dialog empties the key that is called like the deleted mode, and then
moves the slots above it down.  Only the branch for the last mode writes the
key of the slot.  A mode can be called like a setting, and deleting it then
empties the setting.
-/

namespace HapAndroid.MainActivity

/-- The keys of the slots from the deleted one up to the end of the list. -/
def InRange (i nowI : Nat) (key : Text) : Prop := ∃ k, nowI ≤ k ∧ k < i ∧ key = modeKey k

theorem get_deleteSlots_last {sp : Prefs} {nowI : Nat} {key : Text}
    (hkey : ¬ InRange (nowI + 1) nowI key) :
    (deleteSlots sp (nowI + 1) nowI).get key = sp.get key := by
  rw [deleteSlots, if_neg (not_not.mpr rfl), putSlot, Prefs.get_putString, if_neg]
  intro h
  exact hkey ⟨nowI, Nat.le_refl _, Nat.lt_succ_self _, h⟩

/-- Outside its range the dialog changes the key called like the mode. -/
theorem get_deleteSlots {sp : Prefs} {i nowI : Nat} {key : Text} (hi : nowI < i)
    (hlast : i ≠ nowI + 1) (hkey : ¬ InRange i nowI key) :
    (deleteSlots sp i nowI).get key = if key = slot sp nowI then some (.str []) else sp.get key := by
  rw [deleteSlots, if_pos hlast, get_shiftDown_of_ne, Prefs.get_putString]
  intro k hk1 hk2 h
  exact hkey ⟨k, hk1, by omega, h⟩

/-- Deleting touches only the slots of the list, exactly when the last mode is
deleted, or the name of the mode is one of the keys moved, or the key called like
the mode is empty already. -/
theorem delete_frame_iff (env : Env) (a : MainActivity) (hi : a.nowI < a.i) :
    (∀ key, ¬ InRange a.i a.nowI key →
        (a.deleteMode env).2.dev.sp.get key = a.dev.sp.get key) ↔
      a.i = a.nowI + 1 ∨ InRange a.i a.nowI (slot a.dev.sp a.nowI) ∨
        a.dev.sp.get (slot a.dev.sp a.nowI) = some (.str []) := by
  show (∀ key, ¬ InRange a.i a.nowI key →
    (deleteSlots a.dev.sp a.i a.nowI).get key = a.dev.sp.get key) ↔ _
  by_cases hlast : a.i = a.nowI + 1
  · constructor
    · intro _
      exact Or.inl hlast
    · intro _ key hkey
      rw [hlast] at hkey ⊢
      exact get_deleteSlots_last hkey
  · constructor
    · intro h
      by_cases hrange : InRange a.i a.nowI (slot a.dev.sp a.nowI)
      · exact Or.inr (Or.inl hrange)
      · have hname := h _ hrange
        rw [get_deleteSlots hi hlast hrange, if_pos rfl] at hname
        exact Or.inr (Or.inr hname.symm)
    · intro h key hkey
      rw [get_deleteSlots hi hlast hkey]
      split
      · next hname =>
        subst hname
        rcases h with h | h | h
        · exact absurd h hlast
        · exact absurd h hkey
        · exact h.symm
      · rfl

/-- A screen with two modes, the first clicked, beside a setting.  A mode with its name has been
deleted before. -/
def twoModes : MainActivity :=
  { MainActivity.blank .bare with
    dev := ⟨.bare, putSlot (putSlot ((Prefs.empty.putString "localport" "9999").putString "a" [])
      0 "a") 1 "b"⟩
    i := 2
    mData := ["a", "b"]
    nowName := "a" }

/-- The second mode moves to the first slot, and the setting stays. -/
theorem delete_frame_two_modes :
    (twoModes.deleteMode .plain).2.dev.sp.get "localport" = some (.str "9999") ∧
      slot (twoModes.deleteMode .plain).2.dev.sp 0 = "b".toList := by
  have h := (delete_frame_iff .plain twoModes (by decide)).mpr (.inr (.inr (by decide +kernel)))
  refine ⟨(h "localport" ?_).trans (by decide +kernel), by decide +kernel⟩
  rintro ⟨k, -, -, hk⟩
  exact ne_modeKey (by decide) k hk

/-- A mode called `localport` is added before another one and deleted: the
setting is empty. -/
theorem delete_empties_localport :
    ∃ t, Run.run (System.step .plain)
        { app := { MainActivity.blank .bare with
          dev := ⟨.bare, Prefs.empty.putString "localport" "9999"⟩ } }
        [.openAdd "localport", .saveAdd 0 [] [] [], .addResult 0, .openAdd "b",
          .saveAdd 0 [] [] [], .addResult 0, .delete 0] = some t ∧
      t.app.dev.sp.getString? "localport" = some [] := by
  refine ⟨_, rfl, ?_⟩
  decide +kernel

end HapAndroid.MainActivity
