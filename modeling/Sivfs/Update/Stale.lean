/-
# When pages go stale

The two ways in which a call of commit/update leaves a wrong page mapped, for any
mappings, file sizes and addresses that let them happen, and with them the exact
condition under which updating pages agrees with building them.
-/

import Sivfs.Update.Agree

namespace Sivfs
namespace Update

/-! ### The shape of a write-set -/

/-- The write-sets have the same addresses and the same `stream_control` words; what
user space puts into the other fields does not matter to the tagging loop. -/
def SameShape (ws ws' : List WsEntry) : Prop :=
  (ws.map fun ent => (ent.address, ent.streamControl)) =
    ws'.map fun ent => (ent.address, ent.streamControl)

section Shape

variable {mm : Mm} {ent ent' : WsEntry}

/-- Which file an entry is for depends on its address and its length. -/
theorem Addresses.congr {vma : Vma} (h : Addresses mm ent vma) (haddr : ent.address = ent'.address)
    (hsc : ent.streamControl = ent'.streamControl) : Addresses mm ent' vma :=
  ⟨hsc ▸ h.wellFormed, haddr ▸ h.found, haddr ▸ h.aligned⟩

/-- So does whether it passes. -/
theorem Passes.congr {iSize : ℕ → ℕ} (h : Passes mm iSize ent) (haddr : ent.address = ent'.address)
    (hsc : ent.streamControl = ent'.streamControl) : Passes mm iSize ent' := by
  obtain ⟨vma, ha, hlt⟩ := h
  exact ⟨vma, ha.congr haddr hsc, haddr ▸ hlt⟩

/-- So does whether it goes beyond the end of the file. -/
theorem Overruns.congr {iSize : ℕ → ℕ} (h : Overruns mm iSize ent)
    (haddr : ent.address = ent'.address) (hsc : ent.streamControl = ent'.streamControl) :
    Overruns mm iSize ent' := by
  obtain ⟨vma, ha, hge⟩ := h
  exact ⟨vma, ha.congr haddr hsc, haddr ▸ hge⟩

/-- Hence for write-sets of the same shape. -/
theorem AllPass.congr {iSize : ℕ → ℕ → ℕ} {ws ws' : List WsEntry} (h : AllPass mm iSize ws)
    (hshape : SameShape ws ws') : AllPass mm iSize ws' := by
  intro k e' he'
  have hk := congrArg (fun l => l[k]?) hshape
  simp only [List.getElem?_map, he', Option.map_some] at hk
  obtain ⟨e, he, heq⟩ := Option.map_eq_some_iff.1 hk
  obtain ⟨haddr, hsc⟩ := Prod.mk.inj heq
  exact (h k e he).congr haddr hsc

/-- Hence where such a write-set is cut short. -/
theorem CutShort.congr {iSize : ℕ → ℕ → ℕ} {ws ws' : List WsEntry} (h : CutShort mm iSize ws)
    (hshape : SameShape ws ws') : CutShort mm iSize ws' := by
  obtain ⟨pre, e, post, rfl, hpre, he⟩ := h
  unfold SameShape at hshape
  rw [List.map_append, List.map_cons, eq_comm, List.map_eq_append_iff] at hshape
  obtain ⟨pre', rest, rfl, hpre', hrest⟩ := hshape
  obtain ⟨e', post', rfl, heq, -⟩ := List.map_eq_cons_iff.1 hrest
  obtain ⟨haddr, hsc⟩ := Prod.mk.inj heq
  have hlen : pre'.length = pre.length := by
    have := congrArg List.length hpre'
    simpa using this
  refine ⟨pre', e', post', rfl, hpre.congr hpre'.symm, ?_⟩
  rw [hlen]
  exact he.congr haddr.symm hsc.symm

end Shape

/-- To have the same shape goes both ways. -/
theorem SameShape.symm {ws ws' : List WsEntry} (h : SameShape ws ws') :
    SameShape ws' ws := Eq.symm h

/-- The entry with other user bytes in `ino` and another value. -/
def refill (ino value : ℕ) (ent : WsEntry) : WsEntry :=
  { ent with ino := ino, fileOffset := 0, value := value }

/-- Another value does not change the shape. -/
theorem sameShape_refill (ino value : ℕ) (ws : List WsEntry) :
    SameShape (ws.map (refill ino value)) ws := by
  rw [SameShape, List.map_map]
  rfl

/-- The tags leave the value alone. -/
theorem wrote_value {mm : Mm} {ent x : WsEntry} (h : wrote mm ent = some x) :
    x.value = ent.value := by
  unfold wrote at h
  split at h
  · simp at h
  · split_ifs at h
    obtain rfl := Option.some.inj h
    rfl

/-- So does the address. -/
theorem located_value (mm : Mm) (ent : WsEntry) : (located mm ent).value = ent.value := by
  unfold located
  split <;> rfl

/-- Any other write-set makes the call fail. -/
theorem agrees_of_rejected {env : Env} {th : Thread} {ws : List WsEntry} {options : Options}
    (hpass : ¬AllPass env.mm env.iSize ws) (hcut : ¬CutShort env.mm env.iSize ws) :
    Agrees env (commitUpdate env th (some (submit ws)) options) := by
  intro aborted n hret
  obtain ⟨th', entry, p, hwrites, -⟩ := commitUpdate_ok hret
  obtain ⟨w', e, hmeta⟩ := addMetadata_error hpass hcut
  have hne : (submit ws).entries ≠ [] := by
    rintro (rfl : ws = [])
    exact hpass (allPass_nil _ _)
  simp [commitWrites, if_neg hne, hmeta] at hwrites

/-! ### One page -/

/-- One page of a store is mapped. -/
def onlyPage (st : Store) (ino pgoff : ℕ) (checkpoint : Bool) : Workingset := fun i p =>
  if i = ino ∧ p = pgoff then some ⟨checkpoint, st.page ino (pgoff * pageSize)⟩ else none

/-- A page with the words of the store shows the store. -/
theorem shown_onlyPage (st : Store) (ino pgoff : ℕ) (checkpoint : Bool) :
    Shown st (onlyPage st ino pgoff checkpoint) := by
  intro i p r hr
  unfold onlyPage at hr
  split_ifs at hr with hit
  obtain ⟨rfl, rfl⟩ := hit
  obtain rfl := Option.some.inj hr
  exact fun _ _ => rfl

/-- The word of a write in its page. -/
theorem page_wordIndex (st : Store) (ino off : ℕ) :
    st.page ino (off / pageSize * pageSize) (wordIndex off) = st ino (off / wordBytes) := by
  simp only [Store.page, wordIndex, pageSize, wordBytes]
  congr 1
  omega

/-- A page has 512 words. -/
theorem wordIndex_lt (off : ℕ) : wordIndex off < 512 := by
  simp only [wordIndex, pageSize, wordBytes]
  omega

/-- A page is stale if one of its words is. -/
theorem not_isPage {st st' : Store} {ino off : ℕ}
    (h : st ino (off / wordBytes) ≠ st' ino (off / wordBytes)) :
    ¬IsPage st' ino (off / pageSize * pageSize) (st.page ino (off / pageSize * pageSize)) := by
  intro hpage
  have hword := hpage (wordIndex off) (wordIndex_lt off)
  rw [page_wordIndex, page_wordIndex] at hword
  exact h hword

/-! ### Cut short -/

/-- In the pages, the write at which the loop leaves is there. -/
theorem overlay_cut {mm : Mm} {post : List WsEntry} {ent : WsEntry} {vma : Vma}
    (pre : List WsEntry) (st : Store) (ha : Addresses mm ent vma)
    (hpost : ∀ e ∈ post, e.value = ent.value) :
    overlay mm (pre ++ ent :: post) st vma.backingIno (vma.fileOffset ent.address / wordBytes) =
      ent.value := by
  rw [overlay, List.filterMap_append, List.filterMap_cons, ha.wrote, ha.located, List.foldl_append,
    List.foldl_cons]
  refine Store.foldl_apply_const ?_ fun x hx _ _ => ?_
  · exact if_pos ⟨rfl, rfl⟩
  · obtain ⟨e, he, hwrote⟩ := List.mem_filterMap.1 hx
    rw [wrote_value hwrote, hpost e he]

/-- In the log, it is not. -/
theorem replay_cut {mm : Mm} {pre rest : List WsEntry} {ino w : ℕ}
    (hpre : ∀ e ∈ pre, e.value = 0) (hrest : ∀ e ∈ rest, e.ino ≠ ino) :
    (pre.map (located mm) ++ rest).foldl Store.apply (fun _ _ => 0) ino w = 0 := by
  refine Store.foldl_apply_const rfl fun x hx hino _ => ?_
  rcases List.mem_append.1 hx with hx | hx
  · obtain ⟨e, he, rfl⟩ := List.mem_map.1 hx
    rw [located_value, hpre e he]
  · exact absurd hino (hrest x hx)

/-- The page that keeps the write. -/
theorem cut_stale {mm : Mm} {iSize : ℕ → ℕ → ℕ} {pre post : List WsEntry} {ent : WsEntry}
    {vma : Vma}
    (hpre : AllPass mm iSize pre) (ha : Addresses mm ent vma)
    (hge : iSize pre.length vma.backingIno ≤ vma.fileOffset ent.address)
    (hzero : ∀ e ∈ pre, e.value = 0) (hone : ∀ e ∈ ent :: post, e.value = 1)
    (hino : ∀ e ∈ ent :: post, e.ino ≠ vma.backingIno) :
    ∃ th, Ready (alone mm iSize) th (pre ++ ent :: post) ⟨false, false⟩ 0 ∧
      ¬Agrees (alone mm iSize) (commitUpdate (alone mm iSize) th
        (some (submit (pre ++ ent :: post))) ⟨false, false⟩) := by
  have hcall := fun pages => alone_call pages (by simp) (addMetadata_of_cutShort post hpre
    ⟨vma, ha, hge⟩)
  refine ⟨begun (onlyPage (overlay mm (pre ++ ent :: post) fun _ _ => 0) vma.backingIno
    (vma.fileOffset ent.address / pageSize) false), ⟨rfl, le_rfl, shown_onlyPage _ _ _ _,
    by simp [alone], Nat.zero_le _, fun l hl => ?_, ?_⟩, fun hagrees => ?_⟩
  · rw [hcall] at hl
    obtain rfl := Option.some.inj hl
    exact le_rfl
  · rw [hcall]
    exact le_rfl
  · rw [hcall] at hagrees
    obtain ⟨hpage, -⟩ := hagrees false 1 rfl rfl _ _ _ (if_pos ⟨rfl, rfl⟩)
    have hpages : overlay mm (pre ++ ent :: post) (fun _ _ => 0) vma.backingIno
        (vma.fileOffset ent.address / wordBytes) = 1 := by
      rw [overlay_cut pre _ ha fun e he => ?_, hone ent List.mem_cons_self]
      rw [hone e (List.mem_cons_of_mem _ he), hone ent List.mem_cons_self]
    have hlog : abs ((alone mm iSize).logAfter
        (some ⟨1, false, pre.map (located mm) ++ ent :: post⟩)) 1 vma.backingIno
        (vma.fileOffset ent.address / wordBytes) = 0 := replay_cut hzero hino
    refine not_isPage (fun heq => ?_) hpage
    exact one_ne_zero (hpages.symm.trans (heq.trans hlog))

/-- **A write-set that is cut short leaves a stale page.**  Alone, from the snapshot at
`0`, it commits; the page of the write at which the loop leaves keeps it. -/
theorem cutShort_stale {mm : Mm} {iSize : ℕ → ℕ → ℕ} {ws₀ : List WsEntry}
    (h : CutShort mm iSize ws₀) : ∃ env th ws options, env.mm = mm ∧ env.iSize = iSize ∧
      SameShape ws ws₀ ∧ options.directAccess = false ∧ Ready env th ws options 0 ∧
      ¬Agrees env (commitUpdate env th (some (submit ws)) options) := by
  obtain ⟨pre, ent, post, rfl, hpre, vma, ha, hge⟩ := h
  have hshape : SameShape (pre.map (refill 0 0) ++
      (ent :: post).map (refill (vma.backingIno + 1) 1)) (pre ++ ent :: post) := by
    have h₁ := sameShape_refill 0 0 pre
    have h₂ := sameShape_refill (vma.backingIno + 1) 1 (ent :: post)
    rw [SameShape] at h₁ h₂ ⊢
    rw [List.map_append, List.map_append, h₁, h₂]
  have hpre' : AllPass mm iSize (pre.map (refill 0 0)) := hpre.congr (sameShape_refill 0 0 pre).symm
  have ha' : Addresses mm (refill (vma.backingIno + 1) 1 ent) vma := ha.congr rfl rfl
  have hge' : iSize (pre.map (refill 0 0)).length vma.backingIno ≤ vma.fileOffset ent.address := by
    rwa [List.length_map]
  obtain ⟨th, hready, hstale⟩ := cut_stale hpre' ha' hge' (by simp [refill])
    (show ∀ e ∈ (ent :: post).map (refill (vma.backingIno + 1) 1), e.value = 1 by simp [refill])
    (show ∀ e ∈ (ent :: post).map (refill (vma.backingIno + 1) 1), e.ino ≠ vma.backingIno by
      simp [refill])
  exact ⟨_, th, _, _, rfl, rfl, hshape, rfl, hready, hstale⟩

/-! ### Direct access -/

/-- Behind the call, word `0` of file `0` becomes `2`; then there is a checkpoint of
time `n`. -/
def overtaken (mm : Mm) (iSize : ℕ → ℕ → ℕ) (n : ℕ) : Env :=
  { alone mm iSize with
    later := [⟨false, [⟨0, 0, 0, 0, 2⟩]⟩]
    latestTs := n
    settled := some ⟨none, n⟩
    settledTs := n
    masterTs := n
    startedTs := n }

/-- Direct access is taken if the checkpoint is at `master_ts` and nobody commits. -/
theorem updateDirectAccess_of_eq {env : Env} {th : Thread} {n : ℕ}
    (hcp : (n : Ts) = th.checkpointTs)
    (hstarted : env.startedTs = n) :
    updateDirectAccess env th n =
      ({ th with
          workingset := if th.directAccess then th.workingset
            else invalidateWorkingset true th.workingset
          ts := n
          directAccess := true },
        .ok ()) := by
  rw [updateDirectAccess, if_neg (not_not.2 hcp), if_neg (not_not.2 hstarted)]

/-- A page of a checkpoint is mapped all along. -/
theorem overtaken_stale (mm : Mm) (iSize : ℕ → ℕ → ℕ) {ws : List WsEntry} (n : ℕ)
    {entry : Option LogEntry} {commitTs : Ts}
    (hwrites : ∀ pages, commitWrites (overtaken mm iSize (n + 1)) (begun pages) (some (submit ws))
      false = (begun pages, entry, .ok (commitTs, false)))
    (hentry : ∀ l, entry = some l → l.ts ≤ n + 1)
    (hlen : n + 1 ≤ ((overtaken mm iSize (n + 1)).logAfter entry).length)
    (hword : abs ((overtaken mm iSize (n + 1)).logAfter entry) (n + 1) 0 0 = 2)
    (hzero : ∀ e ∈ ws, e.value = 0) :
    ∃ th, Ready (overtaken mm iSize (n + 1)) th ws ⟨false, true⟩ 0 ∧
      ¬Agrees (overtaken mm iSize (n + 1)) (commitUpdate (overtaken mm iSize (n + 1)) th
        (some (submit ws)) ⟨false, true⟩) := by
  have hcall : ∀ pages, commitUpdate (overtaken mm iSize (n + 1)) (begun pages)
      (some (submit ws)) ⟨false, true⟩ =
      ⟨{ begun pages with
          ts := ((n + 1 : ℕ) : Ts)
          checkpoint := some ⟨none, n + 1⟩
          checkpointTs := ((n + 1 : ℕ) : Ts)
          priorCheckpointTs := ((n + 1 : ℕ) : Ts)
          directAccess := true
          workingset := invalidateWorkingset true pages }, entry, .ok false⟩ := by
    intro pages
    have hne : (begun pages).checkpointTs ≠ (overtaken mm iSize (n + 1)).latestTs :=
      fun h => Nat.succ_ne_zero n (WithTop.coe_injective h).symm
    have halloc : allocationOnCommit (overtaken mm iSize (n + 1)) (begun pages) false =
        (begun pages, .ok ()) := rfl
    have hcheck : checkOut (overtaken mm iSize (n + 1)) (begun pages) =
        ({ begun pages with
            checkpoint := some ⟨none, n + 1⟩
            checkpointTs := ((n + 1 : ℕ) : Ts) },
          .ok ((n + 1 : ℕ) : Ts)) := by
      rw [checkOut, if_neg hne]
      rfl
    have hsnap : takeSnapshot (overtaken mm iSize (n + 1))
        ((overtaken mm iSize (n + 1)).logAfter entry)
        { begun pages with
          checkpoint := some ⟨none, n + 1⟩
          checkpointTs := ((n + 1 : ℕ) : Ts) } ⟨false, true⟩ commitTs = _ :=
      updateDirectAccess_of_eq rfl rfl
    rw [commitUpdate_of_writes rfl (hwrites pages)]
    simp only [finish, halloc, hcheck, hsnap]
    rfl
  refine ⟨begun (onlyPage (overlay mm ws fun _ _ => 0) 0 0 true), ⟨rfl, le_rfl,
    shown_onlyPage _ _ _ _, ?_, Nat.zero_le _, fun l hl => ?_, ?_⟩, fun hagrees => ?_⟩
  · simp [overtaken, alone]
  · rw [hcall] at hl
    exact hentry l hl
  · rw [hcall]
    exact hlen
  · rw [hcall] at hagrees
    obtain ⟨hpage, -⟩ := hagrees false (n + 1) rfl rfl 0 0 _ rfl
    have hpages : overlay mm ws (fun _ _ => 0) 0 0 = 0 := by
      refine Store.foldl_apply_const rfl fun x hx _ _ => ?_
      obtain ⟨e, he, hwrote⟩ := List.mem_filterMap.1 hx
      rw [wrote_value hwrote, hzero e he]
    have heq := hpage 0 (by decide)
    exact absurd (hpages.symm.trans (heq.trans hword)) (by decide)

/-- **Direct access leaves a stale page**, whatever write-set is let through. -/
theorem directAccess_stale {mm : Mm} {iSize : ℕ → ℕ → ℕ} {ws₀ : List WsEntry}
    (h : AllPass mm iSize ws₀ ∨ CutShort mm iSize ws₀) : ∃ env th ws options, env.mm = mm ∧
      env.iSize = iSize ∧ SameShape ws ws₀ ∧ options.directAccess = true ∧
      Ready env th ws options 0 ∧
      ¬Agrees env (commitUpdate env th (some (submit ws)) options) := by
  have hshape := sameShape_refill 0 0 ws₀
  have hzero : ∀ e ∈ ws₀.map (refill 0 0), e.value = 0 := by simp [refill]
  obtain ⟨w', hmeta⟩ := admitted (h.imp (·.congr hshape.symm) (·.congr hshape.symm))
  rcases eq_or_ne ws₀ [] with rfl | hne
  · obtain ⟨th, hready, hstale⟩ := overtaken_stale mm iSize 0 (fun pages => rfl)
      (by simp) le_rfl rfl hzero
    exact ⟨_, th, _, _, rfl, rfl, hshape, rfl, hready, hstale⟩
  · have hne' : (submit (ws₀.map (refill 0 0))).entries ≠ [] := by simpa [submit] using hne
    have hwrites : ∀ pages, commitWrites (overtaken mm iSize 2) (begun pages)
        (some (submit (ws₀.map (refill 0 0)))) false =
        (begun pages, some ⟨1, false, w'.entries⟩, .ok ((1 : ℕ), false)) := by
      intro pages
      have hmeta' : addMetadataToChanges (overtaken mm iSize 2).mm (overtaken mm iSize 2).iSize
          (submit (ws₀.map (refill 0 0))) = (w', .ok ()) := hmeta
      simp only [commitWrites, if_neg hne', hmeta']
      rfl
    obtain ⟨th, hready, hstale⟩ := overtaken_stale mm iSize 1 hwrites (by simp) le_rfl rfl
      hzero
    exact ⟨_, th, _, _, rfl, rfl, hshape, rfl, hready, hstale⟩

/-! ### Exactly when -/

/-- **When updating pages agrees with building them.**  For all mappings, file sizes,
addresses and `stream_control` words: in every call with them from a snapshot whose
pages have the thread's writes in them, whatever user space put into the other
fields, whatever other threads commit before and after, and whether the transaction
commits or aborts, every page still mapped when the call returns `0` is the page of
the new snapshot; if and only if no write at or beyond the end of its file comes
before the first one that is rejected, and direct access is not asked for with a
write-set that passes. -/
theorem agrees_iff (mm : Mm) (iSize : ℕ → ℕ → ℕ) (ws₀ : List WsEntry) (direct : Bool) :
    (∀ env th ws options t, env.mm = mm → env.iSize = iSize → SameShape ws ws₀ →
      options.directAccess = direct → Ready env th ws options t →
      Agrees env (commitUpdate env th (some (submit ws)) options)) ↔
    ¬CutShort mm iSize ws₀ ∧ (AllPass mm iSize ws₀ → direct = false) := by
  constructor
  · intro h
    have hdirect : AllPass mm iSize ws₀ ∨ CutShort mm iSize ws₀ → direct = false := by
      intro hadm
      cases direct with
      | false => rfl
      | true =>
        obtain ⟨env, th, ws, options, hmm, hsize, hshape, hopt, hready, hstale⟩ :=
          directAccess_stale hadm
        exact absurd (h env th ws options 0 hmm hsize hshape hopt hready) hstale
    refine ⟨fun hcut => ?_, fun hpass => hdirect (.inl hpass)⟩
    obtain ⟨env, th, ws, options, hmm, hsize, hshape, hopt, hready, hstale⟩ := cutShort_stale hcut
    have hopt' : options.directAccess = direct := hopt.trans (hdirect (.inr hcut)).symm
    exact hstale (h env th ws options 0 hmm hsize hshape hopt' hready)
  · rintro ⟨hcut, hpass⟩ env th ws options t rfl rfl hshape rfl hready
    by_cases hall : AllPass env.mm env.iSize ws₀
    · exact agrees_of_allPass hready (hall.congr hshape.symm) (hpass hall)
    · exact agrees_of_rejected (fun hws => hall (hws.congr hshape)) fun hws =>
        hcut (hws.congr hshape)

/-- The page of file `7` with the stray write in it. -/
def strayPage : Workingset := onlyPage (overlay onePage [strayWrite] fun _ _ => 0) 7 0 false

/-- The file has been truncated to nothing and the call returns `0`; the thread keeps
seeing `5` in word `0`, which `my_sivfs_update_page` would build as `0`. -/
theorem not_agrees_truncated :
    Ready (alone onePage fun _ _ => 0) (begun strayPage) [strayWrite] ⟨false, false⟩ 0 ∧
    commitUpdate (alone onePage fun _ _ => 0) (begun strayPage) (some (submit [strayWrite]))
        ⟨false, false⟩ =
      ⟨{ begun strayPage with ts := (1 : ℕ) }, some ⟨1, false, [strayWrite]⟩, .ok false⟩ ∧
    ((strayPage 7 0).map fun r => r.words 0) = some 5 ∧
    ((Checkpoint.updatePage ⟨[⟨1, false, [strayWrite]⟩], 1, Checkpoint.mounted.heap, ⟨none, 0⟩⟩
      ⟨(1 : ℕ), some ⟨none, 0⟩⟩ 7 0).map fun words => words 0) = .ok 0 ∧
    ¬Agrees (alone onePage fun _ _ => 0) (commitUpdate (alone onePage fun _ _ => 0)
      (begun strayPage) (some (submit [strayWrite])) ⟨false, false⟩) := by
  have hcall : commitUpdate (alone onePage fun _ _ => 0) (begun strayPage)
      (some (submit [strayWrite])) ⟨false, false⟩ =
      ⟨{ begun strayPage with ts := (1 : ℕ) }, some ⟨1, false, [strayWrite]⟩, .ok false⟩ := by
    have hmeta : addMetadataToChanges onePage (fun _ _ => 0) (submit [strayWrite]) =
        (⟨[strayWrite], true, false⟩, .ok ()) := rfl
    exact alone_call strayPage (List.cons_ne_nil _ _) hmeta
  refine ⟨⟨rfl, le_rfl, shown_onlyPage _ _ _ _, by simp [alone], Nat.zero_le _, fun l hl => ?_, ?_⟩,
    hcall, rfl, rfl, fun hagrees => ?_⟩
  · rw [hcall] at hl
    obtain rfl := Option.some.inj hl
    exact le_rfl
  · rw [hcall]
    exact le_rfl
  · rw [hcall] at hagrees
    obtain ⟨hpage, -⟩ := hagrees false 1 rfl rfl 7 0 _ rfl
    exact absurd (hpage 0 (by decide)) (by decide)

end Update
end Sivfs
