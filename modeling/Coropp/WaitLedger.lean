import Coropp.WaitSets

/-!
# What became of every registration

History variables of a poller: the registrations made, those replaced by a later one on the same
descriptor, those that a poll took out, and the entries that polls put into `_pending`.
-/

namespace Coropp

structure Ledger where
  registered : List Wait := []
  replaced : List Wait := []
  scheduled : List Wait := []
  pushed : List PendingEntry := []

namespace Ledger

def register (l : Ledger) (p : WaitSets) (w : Wait) : Ledger :=
  { l with
    registered := w :: l.registered
    replaced := ((p.waitSet w.dir)[w.fd]?.map fun co => ⟨w.dir, w.fd, co⟩).toList ++ l.replaced }

/-- A poll that leaves `p'` and `s'` where it found `p` and `s`. -/
def round (l : Ledger) (p p' : WaitSets) (s s' : Sched) : Ledger :=
  { l with
    scheduled := p.registrations.filter (fun w => ¬p'.Registered w) ++ l.scheduled
    pushed := s'.hist.accepted.drop s.hist.accepted.length ++ l.pushed }

/-- Every registration is still there, or was scheduled once, or was replaced. -/
structure Balanced (l : Ledger) (p : WaitSets) : Prop where
  registered : l.registered.Perm (p.registrations ++ l.scheduled ++ l.replaced)
  pushed : l.pushed.Perm (l.scheduled.map Wait.entry)

theorem balanced_init : Balanced {} {} where
  registered := .refl _
  pushed := .refl _

variable {l : Ledger} {p : WaitSets}

theorem Balanced.register (h : l.Balanced p) (dir : Direction) (fd : Fd) (c : CoroId) :
    (l.register p ⟨dir, fd, c⟩).Balanced (p.setWaitFor dir fd c) where
  registered := by
    unfold Ledger.register
    cases hold : (p.waitSet dir)[fd]? with
    | none =>
      have hnew := WaitSets.registrations_setWaitFor_new c hold
      simp only [Option.map_none, Option.toList_none, List.nil_append]
      refine (h.registered.cons _).trans ?_
      exact (hnew.symm.append_right _).append_right _
    | some old =>
      rcases WaitSets.registrations_setWaitFor_old c hold with ⟨rest, hbefore, hafter⟩
      simp only [Option.map_some, Option.toList_some]
      refine (h.registered.cons _).trans ?_
      -- the old registration moves over to the replaced ones
      have hleft := ((hbefore.append_right l.scheduled).append_right l.replaced).cons ⟨dir, fd, c⟩
      have hright := (hafter.append_right l.scheduled).append_right
        ([(⟨dir, fd, old⟩ : Wait)] ++ l.replaced)
      refine hleft.trans (List.Perm.trans ?_ hright.symm)
      simp only [List.cons_append, List.nil_append]
      exact (List.perm_middle.symm).cons _
  pushed := h.pushed

theorem Balanced.round (h : l.Balanced p) {s s' : Sched} {p' : WaitSets} {woken : List Wait}
    (hperm : p.registrations.Perm (woken ++ p'.registrations))
    (hs : s'.hist.accepted = s.hist.accepted ++ woken.map Wait.entry) :
    (l.round p p' s s').Balanced p' := by
  -- no registration is there twice, so what is gone is what was woken
  have hnodup : (woken ++ p'.registrations).Nodup := by
    apply hperm.nodup_iff.mp
    apply p.registrations_keys_ne.imp
    rintro a b hne rfl
    exact hne ⟨rfl, rfl⟩
  have hgone : (p.registrations.filter fun w => ¬p'.Registered w).Perm woken := by
    refine (hperm.filter _).trans ?_
    rw [List.filter_append, List.filter_eq_self.mpr, List.filter_eq_nil_iff.mpr, List.append_nil]
    · intro w hw
      simpa using WaitSets.mem_registrations.mp hw
    · intro w hw
      have hdisj := (List.nodup_append.mp hnodup).2.2 w hw
      simp only [decide_eq_true_eq]
      intro hreg
      exact hdisj w (WaitSets.mem_registrations.mpr hreg) rfl
  constructor
  · refine h.registered.trans ?_
    apply List.Perm.append_right
    unfold Ledger.round
    rw [← List.append_assoc]
    apply List.Perm.append_right
    refine (hperm.trans List.perm_append_comm).trans ?_
    exact hgone.symm.append_left _
  · unfold Ledger.round
    rw [hs, List.drop_left, List.map_append]
    exact (hgone.map _).symm.append h.pushed

end Ledger

end Coropp
