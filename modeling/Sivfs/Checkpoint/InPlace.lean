/-
# Checkpoints that are written in place

A page that a thread in direct access has mapped for writing may belong to an older checkpoint
too, which another thread has checked out; then a store shows up there.  There are three ways
to such a page.

| step | why the page may be an older one |
| --- | --- |
| a fault for writing | only an absent page and a zero page are replaced |
| `sivfs_mkwrite` | a page that was mapped for reading becomes writable with no lookup |
| the next direct access | pages stay mapped, and the checkpoint is another one |

`Shielded` is what each of them must see to: a page that is writable is younger than every
checkpoint that is older than the thread's and that another thread has.  `Apart` is the
invariant it gives, and `direct_access_isolated` what follows for the stores.
-/

import Sivfs.Checkpoint.DirectAccess

open PathCopy

namespace Sivfs
namespace Checkpoint
namespace Direct

section Isolation

variable {ι : Type*} [DecidableEq ι] {s s' : State ι}

/-- The page is younger than the checkpoints before time `t` that other threads than `i` have. -/
def Younger (s : State ι) (i : ι) (t : ℕ) (page : Ref) : Prop :=
  ∀ j, j ≠ i → ∀ o ∈ (s.threads j).checkpoint, o < t → o < s.heap.checkpointTs page

/-- The page, not a zero page, that the checkpoint of time `t` has there. -/
def State.found (s : State ι) (t fileIno fileOffset : ℕ) : Option ℕ :=
  match follow s.heap.child (s.root t) (pathOf fileIno fileOffset) with
  | some (.page id) => some id
  | _ => none

/-- What becomes writable, or stays so in a new checkpoint, is younger than the older
checkpoints. -/
def Shielded (s : State ι) : Act ι → Prop
  | .fault i true _ ino off => ∀ t ∈ (s.threads i).checkpoint,
      ∀ id ∈ s.found t ino off, Younger s i t (.page id)
  | .mkwrite i m => (s.threads i).directAccess →
      ∀ t ∈ (s.threads i).checkpoint, Younger s i t m.page
  | .directAccess i _ => ∀ m ∈ (s.threads i).mapped, m.writable → Younger s i s.latest m.page
  | _ => True

/-- What direct access should be: a fault maps a page of the thread's checkpoint; no older
checkpoint that another thread has checked out leads to a page that is writable; and no store
to it changes what is read in such a checkpoint. -/
structure Isolated (s : State ι) : Prop where
  fault : ∀ i write faults ino off s', step s (.fault i write faults ino off) = some s' →
    ∀ m ∈ (s'.threads i).mapped, m ∈ (s.threads i).mapped ∨
      ∃ t, (s.threads i).checkpoint = some t ∧
        follow s'.heap.child (s'.root t) (pathOf ino off) = some m.page
  unshared : ∀ i, ∀ m ∈ (s.threads i).mapped, m.writable → ∀ t ∈ (s.threads i).checkpoint,
    ∀ j, j ≠ i → ∀ o ∈ (s.threads j).checkpoint, o < t →
      ∀ ρ, follow s.heap.child (s.root o) ρ ≠ some m.page
  store : ∀ i m word value s', step s (.store i m word value) = some s' →
    ∀ t ∈ (s.threads i).checkpoint, ∀ j, j ≠ i → ∀ o ∈ (s.threads j).checkpoint, o < t →
      ∀ ino off, readCheckpoint s'.heap (s'.root o) ino off =
        readCheckpoint s.heap (s.root o) ino off

/-- Writable pages are younger than the older checkpoints that other threads have. -/
def Apart (s : State ι) : Prop :=
  ∀ i, ∀ m ∈ (s.threads i).mapped, m.writable → ∀ t ∈ (s.threads i).checkpoint,
    Younger s i t m.page

omit [DecidableEq ι] in
/-- The pages keep their age, and no thread takes another checkpoint. -/
theorem Younger.keep {i : ι} {t : ℕ} {page : Ref} (h : Younger s i t page)
    (hg : Grows s.heap s'.heap)
    (hv : Valid s.heap.next page)
    (hcp : ∀ j, j ≠ i → ∀ o ∈ (s'.threads j).checkpoint, o < t → o ∈ (s.threads j).checkpoint) :
    Younger s' i t page := by
  intro j hj o ho hlt
  rw [hg.ts_eq page hv]
  exact h j hj o (hcp j hj o ho hlt) hlt

omit [DecidableEq ι] in
/-- The pages become more. -/
theorem Apart.grows (h : Apart s) (hi : Inv s) (hg : Grows s.heap s'.heap)
    (hthreads : s'.threads = s.threads) : Apart s' := by
  intro i m hm hw t ht
  rw [hthreads] at hm ht
  exact (h i m hm hw t ht).keep hg (hi.mapped i m hm).1 fun j _ o ho _ => hthreads ▸ ho

/-- Thread `i` moves: its writable pages are young enough, and it keeps its checkpoint or takes
the latest one. -/
theorem Apart.setThread (h : Apart s) (hi : Inv s) (i : ι) {th : Thread}
    (hyoung : ∀ m ∈ th.mapped, m.writable → ∀ t ∈ th.checkpoint, Younger s i t m.page)
    (hcp : ∀ o ∈ th.checkpoint, o ∈ (s.threads i).checkpoint ∨ o = s.latest) :
    Apart (s.setThread i th) := by
  intro k m hm hw t ht
  rcases eq_or_ne k i with rfl | hki
  · simp only [State.setThread, Function.update_self] at hm ht
    intro j hj o ho hlt
    simp only [State.setThread, Function.update_of_ne hj] at ho
    exact hyoung m hm hw t ht j hj o ho hlt
  · simp only [State.setThread, Function.update_of_ne hki] at hm ht
    intro j hj o ho hlt
    rcases eq_or_ne j i with rfl | hji
    · simp only [State.setThread, Function.update_self] at ho
      rcases hcp o ho with ho | rfl
      · exact h k m hm hw t ht j hj o ho hlt
      · -- the latest checkpoint is older than no other
        exact absurd (hi.checkpoint_le k t ht) (not_le.2 hlt)
    · simp only [State.setThread, Function.update_of_ne hji] at ho
      exact h k m hm hw t ht j hj o ho hlt

/-- **Every step keeps it**, if it is shielded. -/
theorem Apart.step (h : Apart s) (hi : Inv s) {a : Act ι} (hs : Shielded s a)
    (hstep : step s a = some s') : Apart s' := by
  cases a with
  | commit aborted ws =>
    simp only [Direct.step] at hstep
    split_ifs at hstep
    obtain rfl := Option.some.inj hstep
    exact h
  | makeCheckpoint faults =>
    obtain rfl := Option.some.inj hstep
    obtain ⟨hg, hthr⟩ := hi.makeCheckpoint_grows faults
    exact h.grows hi hg hthr
  | checkout i logged =>
    obtain rfl := Option.some.inj hstep
    have hsub := (s.threads i).checkout_mapped s.log s.latest s.masterTs logged
    refine h.setThread hi i (fun m hm hw => ?_) fun o ho => .inr (Option.some.inj ho).symm
    exact absurd (hi.writable i m (hsub m hm).2 hw) (by simp [(hsub m hm).1])
  | directAccess i outstanding =>
    obtain rfl := Option.some.inj hstep
    refine h.setThread hi i (fun m hm hw t ht => ?_) fun o ho => ?_
    · have hm' : m ∈ (s.threads i).mapped := by
        unfold Thread.enter at hm
        split_ifs at hm <;> exact hm
      have ht' : s.latest = t := by
        unfold Thread.enter at ht
        split_ifs at ht <;> exact Option.some.inj ht
      exact ht' ▸ hs m hm' hw
    · unfold Thread.enter at ho
      split_ifs at ho <;> exact .inr (Option.some.inj ho).symm
  | pause i =>
    obtain rfl := Option.some.inj hstep
    exact h.setThread hi i (by simp) (by simp)
  | fault i write faults ino off =>
    simp only [Direct.step] at hstep
    split_ifs at hstep
    obtain rfl := Option.some.inj hstep
    obtain heq | ⟨t, hcp, ⟨id, hf, heq⟩ | heq⟩ := fault_cases s i write faults ino off
    · rwa [heq]
    · rw [heq]
      refine h.setThread hi i (fun m hm hw t' ht' => ?_) fun o ho => .inl ho
      rcases List.mem_cons.1 hm with rfl | hm
      · obtain rfl : write = true := hw
        obtain rfl : t = t' := Option.some.inj (hcp.symm.trans ht')
        exact hs t hcp id (by rw [State.found, hf]; rfl)
      · exact h i m hm hw t' ht'
    · rw [heq]
      obtain ⟨hp, -⟩ := hi.trees.prepare faults t ino off
      exact h.grows hi hp.grows rfl
  | read i ino off =>
    simp only [Direct.step] at hstep
    split_ifs at hstep
    obtain rfl := Option.some.inj hstep
    obtain heq | ⟨t, page, -, heq⟩ := read_cases s i ino off
    · rwa [heq]
    · rw [heq]
      refine h.setThread hi i (fun m hm hw t' ht' => ?_) fun o ho => .inl ho
      rcases List.mem_cons.1 hm with rfl | hm
      · cases hw
      · exact h i m hm hw t' ht'
  | mkwrite i m =>
    simp only [Direct.step] at hstep
    split_ifs at hstep
    obtain rfl := Option.some.inj hstep
    refine h.setThread hi i (fun m' hm' hw t ht => ?_) fun o ho => .inl ho
    rcases (s.threads i).mkwrite_mapped hm' with ⟨hdirect, rfl⟩ | hm'
    · exact hs hdirect t ht
    · exact h i m' hm' hw t ht
  | store i m word value =>
    simp only [Direct.step] at hstep
    split_ifs at hstep
    obtain ⟨id, -, rfl⟩ := storeWord_some hstep
    exact h.grows hi (storeWord_grows word value) rfl

theorem reachable_apart (h : (machine ι).ReachableWith Shielded s) : Apart s :=
  h.invariant (I := fun s => Apart s)
    (fun s hs i m hm => absurd hm (by simp [hs.2.2 i]))
    fun _ _ _ hr hi hc hstep => hi.step (reachable_inv hr.reachable) hc hstep

omit [DecidableEq ι] in
/-- An older checkpoint leads to no younger page. -/
theorem Apart.unshared (h : Apart s) (hi : Inv s) {i j : ι} {m : Mapping}
    (hm : m ∈ (s.threads i).mapped) (hw : m.writable) {t o : ℕ} (ht : t ∈ (s.threads i).checkpoint)
    (hj : j ≠ i) (ho : o ∈ (s.threads j).checkpoint) (hlt : o < t) (ρ : List ℕ) :
    follow s.heap.child (s.root o) ρ ≠ some m.page := by
  intro hf
  have hle : s.heap.checkpointTs m.page ≤ o := (hi.trees.root_ok o).ts_follow hi.trees.heap hf
  have := h i m hm hw t ht j hj o ho hlt
  omega

/-- **Direct access does not rewrite history**, where every page that becomes writable is
younger than the older checkpoints of other threads. -/
theorem direct_access_isolated (h : (machine ι).ReachableWith Shielded s) : Isolated s := by
  have hi := reachable_inv h.reachable
  have ha := reachable_apart h
  refine ⟨fun i write faults ino off s' hstep m hm => ?_, fun i m hm hw t ht j hj o ho hlt ρ =>
    ha.unshared hi hm hw ht hj ho hlt ρ,
      fun i m word value s' hstep t ht j hj o ho hlt ino off => ?_⟩
  · simp only [step] at hstep
    split_ifs at hstep
    obtain rfl := Option.some.inj hstep
    obtain heq | ⟨t, hcp, ⟨id, hf, heq⟩ | heq⟩ := fault_cases s i write faults ino off
    · rw [heq] at hm
      exact .inl hm
    · rw [heq] at hm ⊢
      simp only [State.map, State.setThread, Function.update_self] at hm
      rcases List.mem_cons.1 hm with rfl | hm
      · exact .inr ⟨t, hcp, hf⟩
      · exact .inl hm
    · rw [heq] at hm
      exact .inl hm
  · simp only [step] at hstep
    split_ifs at hstep with hc
    obtain ⟨id, hid, rfl⟩ := storeWord_some hstep
    have hl := (hi.mapped i m hc.1).2
    rw [hid] at hl
    refine storeWord_read word value hi.trees.heap hl (fun ρ => ?_) ino off
    rw [← hid]
    exact ha.unshared hi hc.1 hc.2.1 ht hj ho hlt ρ

end Isolation

instance (s : State Bool) (i : Bool) (t : ℕ) (page : Ref) : Decidable (Younger s i t page) :=
  inferInstanceAs (Decidable (∀ j, j ≠ i → ∀ o ∈ (s.threads j).checkpoint,
    o < t → o < s.heap.checkpointTs page))

instance (s : State Bool) : ∀ a, Decidable (Shielded s a)
  | .fault i true _ ino off => inferInstanceAs (Decidable (∀ t ∈ (s.threads i).checkpoint,
      ∀ id ∈ s.found t ino off, Younger s i t (.page id)))
  | .mkwrite i m => inferInstanceAs (Decidable ((s.threads i).directAccess →
      ∀ t ∈ (s.threads i).checkpoint, Younger s i t m.page))
  | .directAccess i _ => inferInstanceAs (Decidable (∀ m ∈ (s.threads i).mapped,
      m.writable → Younger s i s.latest m.page))
  | .fault _ false .. | .commit .. | .makeCheckpoint _ | .checkout .. | .pause _ | .read .. |
    .store .. => isTrue trivial

/-- A checkpoint of a commit to file `1`, which a thread checks out, and one of a commit to file
`ino`, which another thread checks out. -/
def twoCheckpoints (ino : ℕ) : List (Act Bool) :=
  [.commit false [⟨1, 8, 0, 0, 7⟩], .makeCheckpoint ⟨none, noFaults, none, none⟩,
    .checkout true true, .commit false [⟨ino, 8, 0, 0, 8⟩],
    .makeCheckpoint ⟨none, noFaults, none, none⟩, .checkout false true]

/-- Then the latter reads file `1`, enters direct access and writes to the page that it has
mapped. -/
def readThenWrite (page : Ref) : List (Act Bool) :=
  [.read false 1 0, .directAccess false false, .mkwrite false ⟨1, 0, page, false⟩]

/-- Then the latter enters direct access and writes to file `1`. -/
def writeAtOnce : List (Act Bool) := [.directAccess false false, .fault false true noFaults 1 0]

/-- The second commit is to the same page, so that checkpoint 2 has its own. -/
theorem direct_access_isolated_samePage : ∃ s, (machine Bool).ReachableWith Shielded s ∧
    (s.threads true).checkpoint = some 1 ∧
    (s.threads false).mapped.map Mapping.writable = [true, true] ∧ Isolated s := by
  have h : ((machine Bool).run (fun s a => decide (Shielded s a)) (mounted Bool)
      (twoCheckpoints 1 ++ readThenWrite (.page 13) ++ [.fault false true noFaults 1 0])).map
        (fun s => ((s.threads true).checkpoint, (s.threads false).mapped.map Mapping.writable)) =
      some (some 1, [true, true]) := by decide +kernel
  obtain ⟨s, hs, h⟩ := Option.map_eq_some_iff.1 h
  obtain ⟨hcp, hmapped⟩ := Prod.mk.inj h
  have hreach : (machine Bool).ReachableWith Shielded s :=
    Machine.ReachableWith.run (fun s a ha => of_decide_eq_true ha)
      (.init ⟨⟨rfl, rfl, rfl, rfl⟩, rfl, fun _ => rfl⟩) hs
  exact ⟨s, hreach, hcp, hmapped, direct_access_isolated hreach⟩

/-- After `acts` a store by one thread changes what the other reads in checkpoint 1. -/
theorem rewrites_of_run {acts : List (Act Bool)}
    (h : ((machine Bool).run (fun _ _ => true) (mounted Bool) acts).bind
      (fun s => (step s (.store false ⟨1, 0, .page 6, true⟩ 1 9)).map fun s' =>
        ((s.threads true).checkpoint, (s.threads false).checkpoint,
          s.heap.contents (s.root 1) (pathOf 1 0) 1,
          s'.heap.contents (s'.root 1) (pathOf 1 0) 1)) = some (some 1, some 2, 7, 9)) :
    ∃ s, (machine Bool).run (fun _ _ => true) (mounted Bool) acts = some s ∧
      (machine Bool).Reachable s ∧ ¬Isolated s := by
  obtain ⟨s, hs, h⟩ := Option.bind_eq_some_iff.1 h
  obtain ⟨s', hstep, h⟩ := Option.map_eq_some_iff.1 h
  simp only [Prod.mk.injEq] at h
  obtain ⟨hcp, hlatest, hbefore, hafter⟩ := h
  refine ⟨s, hs, Machine.ReachableWith.run (fun _ _ _ => trivial) (mounted_reachable Bool) hs,
    fun hi => ?_⟩
  have hread := hi.store false _ 1 9 s' hstep 2 hlatest true (by decide) 1 hcp (by decide) 1 0
  rw [readCheckpoint_ok _ _ (by decide) (by decide), readCheckpoint_ok _ _ (by decide) (by decide)]
    at hread
  have hword := congrFun (Except.ok.inj hread) 1
  omega

/-- The second commit is to another file, and the page of the first belongs to both checkpoints.
The thread writes to it at once, or it has read it before it enters direct access. -/
theorem direct_access_rewrites :
    (∃ s, (machine Bool).run (fun _ _ => true) (mounted Bool) (twoCheckpoints 2 ++ writeAtOnce) =
      some s ∧ (machine Bool).Reachable s ∧ ¬Isolated s) ∧
    ∃ s, (machine Bool).run (fun _ _ => true) (mounted Bool)
      (twoCheckpoints 2 ++ readThenWrite (.page 6)) = some s ∧
      (machine Bool).Reachable s ∧ ¬Isolated s :=
  ⟨rewrites_of_run (by decide +kernel), rewrites_of_run (by decide +kernel)⟩

end Direct
end Checkpoint
end Sivfs
