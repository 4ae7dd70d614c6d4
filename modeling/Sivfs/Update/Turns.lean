/-
# What a turn does to a call

A turn of the machine of `Sivfs.Update.External` concerns one call; the other calls stay where
they are (`step_turns`).  `Course` lists what may come of the one: it works on without a
`next_ts`, it chooses `master_ts` for its `next_ts`, keeps that, takes it for its snapshot, and
returns.  A pause gives the snapshot up.
-/

import Sivfs.Update.Onward

namespace Sivfs
namespace External

open Update

/-! ### What a turn does to a call -/

/-- `next_ts`, once it is read. -/
def Pc.nextTs : Pc → Option ℕ
  | .enter _ n _ | .started _ n _ | .direct _ n _ | .leave _ n _ | .update _ n _ => some n
  | _ => none

/-- The snapshot is taken, or the call has returned `0`. -/
def Pc.Done : Pc → Prop
  | .advance _ _ => True
  | .out (some r) => r.rc = .ok ()
  | _ => False

/-- `commit_ts`, of the call or of the last one. -/
def Pc.commitTs : Pc → Ts
  | .out none => invalidTs
  | .out (some r) => r.commitTs
  | .writes _ l | .changes l | .hooks l | .readLatest l | .readPtr _ l | .publish _ l |
    .validate _ l | .reread l | .nullCheck _ l | .readMaster _ l | .enter _ _ l | .started _ _ l |
    .direct _ _ l | .leave _ _ l | .update _ _ l | .advance _ l => l.commitTs

/-- Everything a turn can do to the snapshot and the program counter of a thread. -/
inductive Course (paused : Prop) (masterTs : ℕ) (ts : Ts) (p : Pc) : Ts → Pc → Prop where
  | stay : Course paused masterTs ts p ts p
  | work {p' : Pc} : p'.nextTs = none → ¬p'.Done →
      p'.commitTs = p.commitTs ∨ p'.commitTs = invalidTs ∨
        (∃ n ≤ masterTs, p'.commitTs = (n : Ts)) → Course paused masterTs ts p ts p'
  | choose {p' : Pc} : p'.nextTs = some masterTs → ¬p'.Done → p'.commitTs = p.commitTs →
      Course paused masterTs ts p ts p'
  | keep {p' : Pc} : p'.nextTs = p.nextTs → ¬p'.Done → p'.commitTs = p.commitTs →
      Course paused masterTs ts p ts p'
  | take {n : ℕ} {p' : Pc} : p.nextTs = some n → p'.nextTs = none → p'.commitTs = p.commitTs →
      Course paused masterTs ts p (n : Ts) p'
  | ret {p' : Pc} : p.Done → p'.nextTs = none → p'.commitTs = p.commitTs →
      Course paused masterTs ts p ts p'
  | pause : paused → Course paused masterTs ts p invalidTs (.out none)

/-- A call with error ends without a snapshot. -/
theorem Course.error {paused : Prop} {m : ℕ} {ts : Ts} {p : Pc} {l : Locals} {e : Errno}
    (hl : l.commitTs = p.commitTs) :
    Course paused m ts p ts (.out (some (l.ret (.error e)))) :=
  .work rfl (by simp [Pc.Done, Locals.ret]) (.inl hl)

section Turn

variable {ι : Type*} {s s' : State ι}

/-- The program counter of a thread. -/
def State.pc (s : State ι) (i : ι) : Pc := (s.threads i).pc

/-- What a turn does to all calls. -/
structure Turns (paused : ι → Prop) (s s' : State ι) : Prop where
  master_le : s.shared.masterTs ≤ s'.shared.masterTs
  reported : Reported s.shared → Reported s'.shared
  course : ∀ j, Course (paused j) s'.shared.masterTs (s.ts j) (s.pc j) (s'.ts j) (s'.pc j)

/-- A turn of the commit protocol that no call notices. -/
theorem Turns.shared {paused : ι → Prop} {shared : Commit.State ι} (ho : Onward s.shared shared) :
    Turns paused s { s with shared := shared } := by
  refine ⟨ho.master_le, ho.reported, fun j => ?_⟩
  have hts : ({ s with shared := shared } : State ι).ts j = s.ts j := ho.ts j
  rw [hts]
  exact .stay

variable [DecidableEq ι]

/-- A turn that only concerns thread `i`. -/
theorem Turns.thread {paused : ι → Prop} {i : ι} (hm : s'.shared.masterTs = s.shared.masterTs)
    (hr : Reported s.shared → Reported s'.shared)
    (hothers : ∀ j, j ≠ i → s'.ts j = s.ts j ∧ s'.pc j = s.pc j)
    (hi : Course (paused i) s.shared.masterTs (s.ts i) (s.pc i) (s'.ts i) (s'.pc i)) :
    Turns paused s s' := by
  refine ⟨hm.ge, hr, fun j => ?_⟩
  rw [hm]
  by_cases hj : j = i
  · subst hj
    exact hi
  · obtain ⟨hts, hpc⟩ := hothers j hj
    rw [hts, hpc]
    exact .stay

/-- The thread goes on where it is put. -/
theorem setThread_pc_self (s : State ι) (i : ι) (th : Thread) :
    (s.setThread i th).pc i = th.pc := by
  simp [State.pc, State.setThread]

/-- The others stay where they are. -/
theorem setThread_pc_of_ne (s : State ι) {i j : ι} (th : Thread) (h : j ≠ i) :
    (s.setThread i th).pc j = s.pc j := by
  simp [State.pc, State.setThread, Function.update_of_ne h]

/-- The snapshot is what it is set to. -/
theorem setTs_ts_self (s : State ι) (i : ι) (ts : Ts) : (s.setTs i ts).ts i = ts := by
  simp [State.ts, State.setTs]

/-- The others keep theirs. -/
theorem setTs_ts_of_ne (s : State ι) {i j : ι} (ts : Ts) (h : j ≠ i) :
    (s.setTs i ts).ts j = s.ts j := by
  simp [State.ts, State.setTs, Function.update_of_ne h]

/-- Snapshots are no reports. -/
theorem setTs_reported {i : ι} {ts : Ts} (h : Reported s.shared) :
    Reported (s.setTs i ts).shared := by
  intro j n hj
  refine h j n ?_
  by_cases hji : j = i
  · subst hji
    simpa [Commit.State.pc, State.setTs] using hj
  · simpa [Commit.State.pc, State.setTs, Function.update_of_ne hji] using hj

/-- A turn that keeps `state->ts`. -/
theorem Turns.setThread {paused : ι → Prop} {i : ι} {th : Thread}
    (h : Course (paused i) s.shared.masterTs (s.ts i) (s.pc i) (s.ts i) th.pc) :
    Turns paused s (s.setThread i th) :=
  .thread (i := i) rfl (fun hr => hr) (fun _ hj => ⟨rfl, setThread_pc_of_ne s th hj⟩)
    (by rwa [setThread_pc_self])

/-- A turn that stores `state->ts`. -/
theorem Turns.setTs {paused : ι → Prop} {i : ι} {ts : Ts} {th : Thread}
    (h : Course (paused i) s.shared.masterTs (s.ts i) (s.pc i) ts th.pc) :
    Turns paused s ((s.setTs i ts).setThread i th) :=
  .thread (i := i) rfl setTs_reported
    (fun _ hj => ⟨setTs_ts_of_ne s ts hj, setThread_pc_of_ne _ th hj⟩)
    (by
      rw [setThread_pc_self]
      show Course _ _ _ _ ((s.setTs i ts).ts i) _
      rwa [setTs_ts_self])

/-- A turn of the commit protocol for thread `i`. -/
theorem Turns.commit {paused : ι → Prop} {i : ι} {shared : Commit.State ι} {p : Pc}
    (ho : Onward s.shared shared)
    (h : Course (paused i) shared.masterTs (s.ts i) (s.pc i) (s.ts i) p) :
    Turns paused s ({ s with shared := shared }.goto i p) := by
  have hts : ∀ j, ({ s with shared := shared }.goto i p).ts j = s.ts j := ho.ts
  refine ⟨ho.master_le, ho.reported, fun j => ?_⟩
  rw [hts]
  by_cases hj : j = i
  · subst hj
    rwa [State.goto, setThread_pc_self]
  · rw [State.goto, setThread_pc_of_ne _ _ hj]
    exact .stay

omit [DecidableEq ι] in
/-- **A commit returns** with a timestamp that `master_ts` has come to, or with none. -/
theorem afterChanges_course {paused : Prop} {i : ι} {l : Locals} {m : ℕ} (hr : Reported s.shared)
    (hm : s.shared.masterTs ≤ m) (hpc : s.pc i = .changes l) :
    Course paused m (s.ts i) (s.pc i) (s.ts i) (afterChanges s.shared i l) := by
  have hsame : Course paused m (s.ts i) (s.pc i) (s.ts i) (.changes l) := by
    rw [hpc]
    exact .stay
  unfold afterChanges
  split
  · rename_i n hn
    split
    · exact .work rfl (by simp [Pc.Done]) (.inr (.inr ⟨n, (hr i n hn).trans hm, rfl⟩))
    · exact hsame
  · exact hsame

/-- The next access of a thread. -/
theorem next_turns {paused : ι → Prop} {i : ι} (hr : Reported s.shared)
    (h : next s i = some s') : Turns paused s s' := by
  unfold next at h
  have hpc : s.pc i = (s.threads i).pc := rfl
  rcases hp : (s.threads i).pc with
    _ | ⟨w, l⟩ | l | l | l | ⟨v, l⟩ | ⟨v, l⟩ | ⟨v, l⟩ | l | ⟨v, l⟩ | ⟨v, l⟩ | ⟨v, n, l⟩ |
    ⟨v, n, l⟩ | ⟨v, n, l⟩ | ⟨v, n, l⟩ | ⟨v, n, l⟩ | ⟨v, l⟩ <;>
    rw [hp] at hpc <;> simp only [hp, reduceCtorEq, Option.some.injEq] at h
  case changes =>
    obtain ⟨shared, hshared, rfl⟩ := Option.map_eq_some_iff.1 h
    have ho := Onward.next hshared
    exact .commit ho (afterChanges_course hr ho.master_le hpc)
  case hooks | readPtr | publish | reread =>
    subst h
    exact .setThread (.work rfl (by simp [Pc.Done]) (.inl (by rw [hpc]; rfl)))
  case readLatest | validate =>
    split_ifs at h <;> obtain rfl := Option.some.inj h
    · exact .setThread (.work rfl (by simp [Pc.Done]) (.inl (by rw [hpc]; rfl)))
    · exact .setThread (.work rfl (by simp [Pc.Done]) (.inl (by rw [hpc]; rfl)))
  case nullCheck =>
    split_ifs at h <;> obtain rfl := Option.some.inj h
    · exact .setThread (.error (by rw [hpc]; rfl))
    · exact .setThread (.work rfl (by simp [Pc.Done]) (.inl (by rw [hpc]; rfl)))
  case readMaster =>
    split_ifs at h <;> obtain rfl := Option.some.inj h
    · exact .setThread (.choose rfl (by simp [Pc.Done]) (by rw [hpc]; rfl))
    · exact .setThread (.choose rfl (by simp [Pc.Done]) (by rw [hpc]; rfl))
  case enter =>
    split_ifs at h <;> obtain rfl := Option.some.inj h
    · exact .setThread (.error (by rw [hpc]; rfl))
    · exact .setThread (.keep (by rw [hpc]; rfl) (by simp [Pc.Done]) (by rw [hpc]; rfl))
  case started =>
    split_ifs at h <;> obtain rfl := Option.some.inj h
    · exact .setThread (.error (by rw [hpc]; rfl))
    · exact .setThread (.keep (by rw [hpc]; rfl) (by simp [Pc.Done]) (by rw [hpc]; rfl))
  case leave =>
    subst h
    exact .setThread (.keep (by rw [hpc]; rfl) (by simp [Pc.Done]) (by rw [hpc]; rfl))
  case direct | update =>
    subst h
    exact .setTs (.take (by rw [hpc]; rfl) rfl (by rw [hpc]; rfl))
  case advance =>
    subst h
    exact .setThread (.ret (by rw [hpc]; trivial) rfl (by rw [hpc]; rfl))

/-- A call that fails keeps its snapshot. -/
theorem fails_turns {paused : ι → Prop} {i : ι} {e : Errno} (h : fails s i e = some s') :
    Turns paused s s' := by
  unfold fails at h
  have hpc : s.pc i = (s.threads i).pc := rfl
  rcases hp : (s.threads i).pc with
    _ | ⟨w, l⟩ | l | l | l | ⟨v, l⟩ | ⟨v, l⟩ | ⟨v, l⟩ | l | ⟨v, l⟩ | ⟨v, l⟩ | ⟨v, n, l⟩ |
    ⟨v, n, l⟩ | ⟨v, n, l⟩ | ⟨v, n, l⟩ | ⟨v, n, l⟩ | ⟨v, l⟩ <;>
    rw [hp] at hpc <;> simp only [hp, reduceCtorEq, Option.some.injEq] at h
  case hooks =>
    subst h
    exact .setThread (.error (by rw [hpc]; rfl))
  case direct | leave | update =>
    split_ifs at h
    obtain rfl := Option.some.inj h
    exact .setThread (.error (by rw [hpc]; rfl))

/-- A call with its tags commits, or goes on without a commit. -/
theorem commitTagged_turns {paused : ι → Prop} {i : ι} {ws : List WsEntry} {l : Locals}
    (hl : l.commitTs = (s.pc i).commitTs) (h : commitTagged s i ws l = some s') :
    Turns paused s s' := by
  unfold commitTagged at h
  split_ifs at h
  · obtain rfl := Option.some.inj h
    exact .setThread (.work rfl (by simp [Pc.Done]) (.inl hl))
  · obtain ⟨shared, hshared, rfl⟩ := Option.map_eq_some_iff.1 h
    exact .commit (.begin hshared) (.work rfl (by simp [Pc.Done]) (.inl hl))

/-- The write-set is tagged. -/
theorem tag_turns {paused : ι → Prop} {i : ι} {mm : Mm} {iSize : ℕ → ℕ → ℕ}
    (h : step s (.tag i mm iSize) = some s') : Turns paused s s' := by
  simp only [step] at h
  split at h
  · rename_i l hp
    obtain rfl := Option.some.inj h
    exact .setThread (.work rfl (by simp [Pc.Done]) (.inl (by rw [State.pc, hp]; rfl)))
  · rename_i w l hp
    split_ifs at h
    · obtain rfl := Option.some.inj h
      exact .setThread (.work rfl (by simp [Pc.Done]) (.inl (by rw [State.pc, hp]; rfl)))
    · rcases hw : addMetadataToChanges mm iSize w with ⟨w', e | ⟨⟩⟩
      · simp only [hw] at h
        obtain rfl := Option.some.inj h
        exact .setThread (.error (by rw [State.pc, hp]; rfl))
      · simp only [hw] at h
        exact commitTagged_turns (by rw [State.pc, hp]; rfl) h
  · simp at h

/-- **Every turn takes each call one of these ways**, and a snapshot is given up only
by a pause of the thread itself. -/
theorem step_turns {a : Act ι} (hr : Reported s.shared) (h : step s a = some s') :
    Turns (fun j => a = .pause j) s s' := by
  cases a with
  | call i w options =>
    simp only [step] at h
    split at h
    · rename_i last hp
      split_ifs at h <;> obtain rfl := Option.some.inj h
      · exact .setThread (.work rfl (by simp [Pc.Done]) (.inr (.inl rfl)))
      · exact .setThread (.work rfl (by simp [Pc.Done]) (.inr (.inl rfl)))
    · simp at h
  | tag i mm iSize => exact tag_turns h
  | acquire i =>
    obtain ⟨shared, hshared, rfl⟩ := Option.map_eq_some_iff.1 h
    exact .shared (.acquire hshared)
  | interrupt i =>
    simp only [step] at h
    split at h
    · rename_i l hp
      obtain ⟨shared, hshared, rfl⟩ := Option.map_eq_some_iff.1 h
      exact .commit (.interrupt hshared) (.error (by rw [State.pc, hp]; rfl))
    · simp at h
  | createFails i =>
    simp only [step] at h
    split at h
    · rename_i l hp
      obtain ⟨shared, hshared, rfl⟩ := Option.map_eq_some_iff.1 h
      exact .commit (.createFails hshared) (.error (by rw [State.pc, hp]; rfl))
    · simp at h
  | next i => exact next_turns hr h
  | fails i e => exact fails_turns h
  | pause i =>
    simp only [step] at h
    split at h
    · obtain rfl := Option.some.inj h
      exact .setTs (.pause rfl)
    · simp at h
  | doom i =>
    obtain rfl := Option.some.inj h
    exact .setThread .stay
  | storeLatestTs v =>
    obtain rfl := Option.some.inj h
    exact ⟨le_rfl, fun hr => hr, fun _ => .stay⟩
  | storeLatestCp c =>
    obtain rfl := Option.some.inj h
    exact ⟨le_rfl, fun hr => hr, fun _ => .stay⟩
  | deleteLog stop =>
    obtain ⟨shared, hshared, rfl⟩ := Option.map_eq_some_iff.1 h
    exact .shared (.deleteLog hshared)

end Turn

end External
end Sivfs
