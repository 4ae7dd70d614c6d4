/-
# Bounds of the write-set walk

The loop `while(size_left)` over an untrusted write-set.  The comment on
`sivfs_wse_to_stream_info` promises a size check, "the entry's value field
should not extend past size bytes from entry".  The check is made on the stream
branch only, after the header has been read, and against a size computed in
`size_t` arithmetic.  A tail too short for the entry it starts, and a stream
whose length is `2^64` or more, slip through it.

Whatever the loop body does, the walk is safe (`ParseSafe`) exactly when
(`parseSafe_iff_walkSafe`), at each entry it comes to, no such slip is made, the
body does not hang, and the body leaves the loop with `rc == 0` only if the
whole buffer splits into entries.  One turn is `wsWalk_succ`, the way to an
entry is `Splits.wsWalk_append`.
-/

import Sivfs.Writeset

namespace Sivfs

/-! ### Well-formed buffers -/

/-- The exact length of a well-formed entry with this `stream_control`; `none`
if there is no such entry. -/
def entryBytes (sc : ℕ) : Option ℕ :=
  if sc = 0 then some 40
  else if sc.testBit 63 = false ∨ streamWords sc = 0 then none
  else if sc.testBit 62 then some 40
  else some (32 + wordBytes * streamWords sc)

/-- The bytes from `off` to `stop` are exactly these well-formed entries. -/
inductive Splits (b : Buffer) : ℕ → List WsEntry → ℕ → Prop where
  | nil (off : ℕ) : Splits b off [] off
  | cons {off n stop : ℕ} {ents : List WsEntry} :
      entryBytes (entryAt b off).streamControl = some n →
      Splits b (off + n) ents stop → Splits b off (entryAt b off :: ents) stop

/-- An entry starting at `off` with `left` bytes to go escapes the size check. -/
def Slip (b : Buffer) (off left : ℕ) : Prop :=
  left < 32 ∨ ((entryAt b off).streamControl = 0 ∧ left < 40) ∨
    ((entryAt b off).streamControl.testBit 63 = true ∧
      (entryAt b off).streamControl.testBit 62 = false ∧
      u64Size ≤ 32 + wordBytes * streamWords (entryAt b off).streamControl ∧
      (32 + wordBytes * streamWords (entryAt b off).streamControl) % u64Size ≤ left)

/-- No entry behind whole entries from `off` on escapes the size check. -/
def NoSlip (b : Buffer) (off left : ℕ) : Prop :=
  ∀ ents off', Splits b off ents off' → off' < off + left → ¬Slip b off' (off + left - off')

/-- A well-formed entry starts at `off`, and it fits into the `left` bytes to go. -/
def EntryFits (b : Buffer) (off left : ℕ) : Prop :=
  ∃ n, entryBytes (entryAt b off).streamControl = some n ∧ n ≤ left

/-- What a walk over `size` bytes must keep to: it ends; the header of every
entry it looks at, and every value word of an entry it accepts, lie inside;
`size_left` never underflows; and a buffer that does not split into entries
makes it return an error. -/
structure ParseSafe {σ : Type*} (body : LoopBody σ) (s : σ) (b : Buffer) (size : ℕ) : Prop where
  ends : ∃ fuel, (wsWalk body fuel s b 0 size).how ≠ .running
  header_inside : ∀ fuel, ∀ v ∈ (wsWalk body fuel s b 0 size).visits, v.off + 32 ≤ size
  inside : ∀ fuel, ∀ v ∈ (wsWalk body fuel s b 0 size).visits, ∀ info, v.info = .ok info →
    v.off + info.bytes ≤ size
  no_underflow : ∀ fuel, ∀ v ∈ (wsWalk body fuel s b 0 size).visits, ∀ info, v.info = .ok info →
    wseSize info ≤ v.left
  rejects : (¬∃ ents, Splits b 0 ents size) → ∃ fuel e, (wsWalk body fuel s b 0 size).how = .error e

/-! ### What the loop body does -/

/-- The loop goes on behind the entry. -/
def BodyResult.goesOn : BodyResult → Bool
  | .next | .tag _ _ => true
  | _ => false

/-- What the body remembers when it has gone on past these entries; `none` if it
does not go on past them all. -/
def LoopBody.after {σ : Type*} (body : LoopBody σ) : σ → List WsEntry → Option σ
  | s, [] => some s
  | s, ent :: ents => if (body s ent).1.goesOn then after body (body s ent).2 ents else none

/-- At every entry that the walk comes to: it does not escape the size check, and
if it is whole, then the body does not hang and leaves the loop with `rc == 0`
only if all of the bytes split into entries. -/
def WalkSafe {σ : Type*} (body : LoopBody σ) (s : σ) (b : Buffer) (off left : ℕ) : Prop :=
  ∀ ents off' s', Splits b off ents off' → body.after s ents = some s' → off' < off + left →
    ¬Slip b off' (off + left - off') ∧
      (EntryFits b off' (off + left - off') →
        (body s' (entryAt b off')).1 ≠ .hang ∧
          ((body s' (entryAt b off')).1 = .stop → ∃ ents, Splits b off ents (off + left)))

/-! ### The size check -/

/-- `sivfs_wse_size` is the exact length modulo `2^64`. -/
theorem wseSize_eq (info : StreamInfo) : wseSize info = info.bytes % u64Size := by
  unfold wseSize StreamInfo.bytes sizeofWsEntry wordBytes u64Size
  omega

/-- The bytes of a stream: one word if it is constant, else as many as it declares. -/
theorem unpackStream_bytes (sc : ℕ) :
    (unpackStream sc).bytes = if sc.testBit 62 then 40 else 32 + wordBytes * streamWords sc := by
  unfold StreamInfo.bytes unpackStream
  split_ifs <;> rfl

/-- The ways an entry is accepted. -/
theorem wseToStreamInfo_ok {sc size : ℕ} {info : StreamInfo}
    (h : wseToStreamInfo sc size = .ok info) :
    (sc = 0 ∧ info = ⟨1, 1, false, false⟩) ∨
      (sc ≠ 0 ∧ sc.testBit 63 = true ∧ streamWords sc ≠ 0 ∧ info = unpackStream sc ∧
        wseSize info ≤ size) := by
  unfold wseToStreamInfo at h
  split_ifs at h with h0 h1 h2 h3
  · exact .inl ⟨h0, (Except.ok.inj h).symm⟩
  · obtain rfl := Except.ok.inj h
    exact .inr ⟨h0, by simpa using h1, h2, rfl, not_lt.1 h3⟩

/-- There is one error. -/
theorem wseToStreamInfo_error {sc size : ℕ} {e : Errno} (h : wseToStreamInfo sc size = .error e) :
    e = .einval := by
  unfold wseToStreamInfo at h
  split_ifs at h <;> exact (Except.error.inj h).symm

/-- An accepted entry is well-formed, and as long as its value words say. -/
theorem entryBytes_of_ok {sc size : ℕ} {info : StreamInfo}
    (h : wseToStreamInfo sc size = .ok info) : entryBytes sc = some info.bytes := by
  rcases wseToStreamInfo_ok h with ⟨rfl, rfl⟩ | ⟨h0, h1, h2, rfl, -⟩
  · rfl
  · rw [unpackStream_bytes]
    unfold entryBytes
    rw [if_neg h0, if_neg (by simp [h1, h2])]
    split_ifs <;> rfl

/-- An entry has at least 40 bytes. -/
theorem entryBytes_ge {sc n : ℕ} (h : entryBytes sc = some n) : 40 ≤ n := by
  unfold entryBytes wordBytes at h
  split_ifs at h <;> obtain rfl := Option.some.inj h <;> omega

/-- A well-formed entry that fits is accepted. -/
theorem wseToStreamInfo_of_fits {sc size n : ℕ} (hn : entryBytes sc = some n)
    (hfit : n ≤ size) :
    ∃ info, wseToStreamInfo sc size = .ok info ∧ info.bytes = n := by
  unfold entryBytes at hn
  split_ifs at hn with h0 h1 h2
  · exact ⟨_, if_pos h0, Option.some.inj hn⟩
  all_goals
    have hbytes : (unpackStream sc).bytes = n := by
      simpa [unpackStream_bytes, h2] using hn
    have hsz : ¬size < wseSize (unpackStream sc) := by
      rw [wseSize_eq, hbytes]
      exact not_lt.2 ((Nat.mod_le _ _).trans hfit)
    push Not at h1
    refine ⟨_, ?_, hbytes⟩
    rw [wseToStreamInfo, if_neg h0, if_neg h1.1, if_neg h1.2, if_neg hsz]

/-- An entry that is accepted and does not slip fits, and its size is its exact
length. -/
theorem fits_of_ok {b : Buffer} {off left : ℕ} {info : StreamInfo}
    (hleft : left < u64Size) (hslip : ¬Slip b off left)
    (h : wseToStreamInfo (entryAt b off).streamControl left = .ok info) :
    info.bytes ≤ left ∧ wseSize info = info.bytes ∧ 40 ≤ info.bytes := by
  have hfit : info.bytes ≤ left := by
    unfold Slip at hslip
    push Not at hslip
    obtain ⟨-, hplain, hwrap⟩ := hslip
    rcases wseToStreamInfo_ok h with ⟨h0, rfl⟩ | ⟨-, h1, -, rfl, hsz⟩
    · exact hplain h0
    rw [wseSize_eq, unpackStream_bytes] at hsz
    rw [unpackStream_bytes]
    split_ifs at hsz ⊢ with hc
    · exact hsz
    by_cases hbig : u64Size ≤ 32 + wordBytes * streamWords (entryAt b off).streamControl
    · have := hwrap h1 (by simpa using hc) hbig
      omega
    · rwa [Nat.mod_eq_of_lt (not_le.1 hbig)] at hsz
  exact ⟨hfit, by rw [wseSize_eq, Nat.mod_eq_of_lt (by omega)],
    entryBytes_ge (entryBytes_of_ok h)⟩

/-- An entry that slips is looked at past the end, or accepted though it does
not fit. -/
theorem Slip.outside {b : Buffer} {off left : ℕ} (h : Slip b off left) (hleft : left < u64Size) :
    left < 32 ∨ ∃ info, wseToStreamInfo (entryAt b off).streamControl left = .ok info ∧
      left < info.bytes := by
  rcases h with h | ⟨h0, h⟩ | ⟨h1, h2, hbig, hle⟩
  · exact .inl h
  · exact .inr ⟨_, if_pos h0, h⟩
  · have hbytes : (unpackStream (entryAt b off).streamControl).bytes =
        32 + wordBytes * streamWords (entryAt b off).streamControl := by
      rw [unpackStream_bytes, if_neg (by simp [h2])]
    have h0 : (entryAt b off).streamControl ≠ 0 := by
      intro h0
      simp [h0] at h1
    have hw : streamWords (entryAt b off).streamControl ≠ 0 := by
      intro hw
      rw [hw] at hbig
      exact absurd hbig (by decide)
    refine .inr ⟨unpackStream (entryAt b off).streamControl, ?_, by omega⟩
    rw [wseToStreamInfo, if_neg h0, if_neg (by simp [h1]), if_neg hw,
      if_neg (by rw [wseSize_eq, hbytes]; exact not_lt.2 hle)]

/-! ### What the walk leaves alone -/

theorem storeWord_of_le {b : Buffer} {o v i : ℕ} (h : o + 8 ≤ i) : storeWord b o v i = b i :=
  if_neg (by omega)

/-- The body stores below the value words only: what follows is unchanged. -/
theorem BodyResult.store_of_le {b : Buffer} {o i : ℕ} (r : BodyResult) (h : o + 16 ≤ i) :
    r.store b o i = b i := by
  cases r with
  | tag ino fileOffset =>
    rw [BodyResult.store, storeWord_of_le (by omega), storeWord_of_le (by omega)]
  | _ => rfl

/-- An entry is in the bytes from its offset on. -/
theorem entryAt_congr {b b' : Buffer} {off : ℕ} (h : ∀ i, off ≤ i → b i = b' i) :
    entryAt b off = entryAt b' off := by
  simp only [entryAt, loadWord_congr h, loadWord_congr fun i (hi : off + 8 ≤ i) => h i (by omega),
    loadWord_congr fun i (hi : off + 16 ≤ i) => h i (by omega),
    loadWord_congr fun i (hi : off + 24 ≤ i) => h i (by omega),
    loadWord_congr fun i (hi : off + 32 ≤ i) => h i (by omega)]

/-- So is how they split. -/
theorem Splits.congr {b b' : Buffer} {off stop : ℕ} {ents : List WsEntry}
    (h : ∀ i, off ≤ i → b i = b' i) (hs : Splits b off ents stop) : Splits b' off ents stop := by
  induction hs with
  | nil off => exact .nil off
  | cons hn _ ih =>
    rw [entryAt_congr h] at hn ⊢
    exact .cons hn (ih fun i hi => h i (by omega))

/-- So is a slip. -/
theorem Slip.congr {b b' : Buffer} {off left : ℕ} (h : ∀ i, off ≤ i → b i = b' i)
    (hs : Slip b off left) : Slip b' off left := by
  unfold Slip at hs ⊢
  rwa [← entryAt_congr h]

/-- And whether the first entry fits. -/
theorem EntryFits.congr {b b' : Buffer} {off left : ℕ} (h : ∀ i, off ≤ i → b i = b' i)
    (hf : EntryFits b off left) : EntryFits b' off left := by
  unfold EntryFits at hf ⊢
  rwa [← entryAt_congr h]

/-- Entries go forward. -/
theorem Splits.le {b : Buffer} {off stop : ℕ} {ents : List WsEntry} (h : Splits b off ents stop) :
    off ≤ stop := by
  induction h with
  | nil => exact le_rfl
  | cons _ _ ih => omega

/-- What splits into entries splits behind the first of them. -/
theorem Splits.tail {b : Buffer} {off stop n : ℕ} {ents : List WsEntry} (h : Splits b off ents stop)
    (hlt : off < stop) (hn : entryBytes (entryAt b off).streamControl = some n) :
    ∃ ents', Splits b (off + n) ents' stop := by
  cases h with
  | nil => exact absurd hlt (lt_irrefl _)
  | cons hn' hrest =>
    obtain rfl := Option.some.inj (hn.symm.trans hn')
    exact ⟨_, hrest⟩

/-- The last of some entries. -/
theorem Splits.concat {b : Buffer} {off stop : ℕ} {ents : List WsEntry} {ent : WsEntry}
    (h : Splits b off (ents ++ [ent]) stop) : ∃ off' n, Splits b off ents off' ∧
      ent = entryAt b off' ∧ entryBytes ent.streamControl = some n ∧ off' + n = stop := by
  induction ents generalizing off with
  | nil =>
    cases h with
    | cons hn hrest =>
      cases hrest
      exact ⟨off, _, .nil off, rfl, hn, rfl⟩
  | cons x ents ih =>
    cases h with
    | cons hn hrest =>
      obtain ⟨off', n, hs, he⟩ := ih hrest
      exact ⟨off', n, .cons hn hs, he⟩

/-- The body, at one entry more. -/
theorem LoopBody.after_concat {σ : Type*} (body : LoopBody σ) (s : σ) (ents : List WsEntry)
    (ent : WsEntry) : body.after s (ents ++ [ent]) = (body.after s ents).bind fun s' =>
      if (body s' ent).1.goesOn then some (body s' ent).2 else none := by
  induction ents generalizing s with
  | nil => rfl
  | cons x ents ih =>
    rw [List.cons_append, LoopBody.after, LoopBody.after]
    split_ifs
    · exact ih _
    · rfl

/-- Behind some of its entries, a buffer that splits into entries still does. -/
theorem Splits.drop {b : Buffer} {off off' stop : ℕ} {pre ents : List WsEntry}
    (hpre : Splits b off pre off') (h : Splits b off ents stop) (hle : off' ≤ stop) :
    ∃ ents', Splits b off' ents' stop := by
  induction hpre generalizing ents with
  | nil => exact ⟨ents, h⟩
  | cons hn hrest ih =>
    have hn40 := entryBytes_ge hn
    have hle' := hrest.le
    obtain ⟨ents', h'⟩ := h.tail (by omega) hn
    exact ih h' hle

/-- **In a buffer that splits into entries, none escapes the size check.** -/
theorem Splits.noSlip {b : Buffer} {off left : ℕ} {ents : List WsEntry}
    (h : Splits b off ents (off + left)) (hsize : off + left < u64Size) : NoSlip b off left := by
  intro pre off' hpre hlt hslip
  obtain ⟨ents', h'⟩ := hpre.drop h hlt.le
  cases h' with
  | nil => exact absurd hlt (lt_irrefl _)
  | cons hn hrest =>
    have h40 := entryBytes_ge hn
    have hfit := hrest.le
    rcases hslip with hshort | ⟨-, hshort⟩ | ⟨h1, h2, hbig, -⟩
    · omega
    · omega
    · unfold entryBytes at hn
      split_ifs at hn with h0 hbad hc
      · simp [h0] at h1
      · simp [h2] at hc
      · obtain rfl := Option.some.inj hn
        omega

/-! ### One turn of the loop -/

section Turn

variable {σ : Type*} {body : LoopBody σ} {s : σ} {b : Buffer} {off left : ℕ}

/-- Without a slip there is none at the first entry. -/
theorem NoSlip.head (h : NoSlip b off left) (h0 : left ≠ 0) : ¬Slip b off left := by
  have := h [] off (.nil off) (by omega)
  rwa [Nat.add_sub_cancel_left] at this

/-- Past an entry that fits there is no slip either. -/
theorem NoSlip.tail {b' : Buffer} {n : ℕ} (h : NoSlip b off left)
    (hn : entryBytes (entryAt b off).streamControl = some n) (hfit : n ≤ left)
    (hb : ∀ i, off + n ≤ i → b' i = b i) : NoSlip b' (off + n) (left - n) := by
  intro ents off' hs hlt hslip
  refine h _ off' (.cons hn (hs.congr hb)) (by omega) ?_
  rw [show off + n + (left - n) - off' = off + left - off' by omega] at hslip
  exact hslip.congr fun i hi => hb i (hs.le.trans hi)

/-- A walk whose body goes on at an accepted entry goes on behind it. -/
theorem wsWalk_goesOn {info : StreamInfo} (fuel : ℕ) (h0 : left ≠ 0)
    (hok : wseToStreamInfo (entryAt b off).streamControl left = .ok info)
    (hgo : (body s (entryAt b off)).1.goesOn = true) :
    wsWalk body (fuel + 1) s b off left =
      let w := wsWalk body fuel (body s (entryAt b off)).2 ((body s (entryAt b off)).1.store b off)
        ((off + wseSize info) % u64Size) ((left + (u64Size - wseSize info)) % u64Size)
      { w with visits := ⟨off, left, .ok info⟩ :: w.visits } := by
  rw [wsWalk, if_neg h0]
  simp only [hok]
  rcases hr : body s (entryAt b off) with ⟨_ | ⟨ino, fileOffset⟩ | _ | e | _, s'⟩
  · rfl
  · rfl
  all_goals simp [hr, BodyResult.goesOn] at hgo

/-- Behind an entry that fits, `off` and `size_left` are exact. -/
theorem wsWalk_goesOn_fits {info : StreamInfo} (fuel : ℕ) (hsize : off + left < u64Size)
    (h40 : 40 ≤ info.bytes) (hfit : info.bytes ≤ left)
    (hok : wseToStreamInfo (entryAt b off).streamControl left = .ok info)
    (hgo : (body s (entryAt b off)).1.goesOn = true) :
    wsWalk body (fuel + 1) s b off left =
      let w := wsWalk body fuel (body s (entryAt b off)).2 ((body s (entryAt b off)).1.store b off)
        (off + info.bytes) (left - info.bytes)
      { w with visits := ⟨off, left, .ok info⟩ :: w.visits } := by
  have hsz : wseSize info = info.bytes := by rw [wseSize_eq, Nat.mod_eq_of_lt (by omega)]
  have hoff : (off + wseSize info) % u64Size = off + info.bytes := by
    rw [hsz, Nat.mod_eq_of_lt (by omega)]
  have hleft : (left + (u64Size - wseSize info)) % u64Size = left - info.bytes := by
    rw [hsz, show left + (u64Size - info.bytes) = left - info.bytes + u64Size by omega,
      Nat.add_mod_right, Nat.mod_eq_of_lt (by omega)]
  rw [wsWalk_goesOn fuel (by omega) hok hgo, hoff, hleft]

/-- The same with what the body must not do there. -/
theorem WalkSafe.head (h : WalkSafe body s b off left) (h0 : left ≠ 0) : ¬Slip b off left ∧
    (EntryFits b off left → (body s (entryAt b off)).1 ≠ .hang ∧
      ((body s (entryAt b off)).1 = .stop → ∃ ents, Splits b off ents (off + left))) := by
  have := h [] off s (.nil off) rfl (by omega)
  rwa [Nat.add_sub_cancel_left] at this

/-- Past an entry that fits, the walk stays safe. -/
theorem WalkSafe.tail {b' : Buffer} {n : ℕ} (h : WalkSafe body s b off left)
    (hn : entryBytes (entryAt b off).streamControl = some n) (hfit : n ≤ left)
    (hgo : (body s (entryAt b off)).1.goesOn = true) (hb : ∀ i, off + n ≤ i → b' i = b i) :
    WalkSafe body (body s (entryAt b off)).2 b' (off + n) (left - n) := by
  intro ents off' s' hs hafter hlt
  have hcongr : ∀ i, off' ≤ i → b' i = b i := fun i hi => hb i (hs.le.trans hi)
  have hstep := h _ off' s' (.cons hn (hs.congr hb)) (by rw [LoopBody.after, if_pos hgo, hafter])
    (by omega)
  rw [show off + left - off' = off + n + (left - n) - off' by omega] at hstep
  refine ⟨fun hslip => hstep.1 (hslip.congr hcongr), fun hfits => ?_⟩
  obtain ⟨hhang, hstop⟩ := hstep.2 (hfits.congr hcongr)
  rw [entryAt_congr hcongr]
  refine ⟨hhang, fun hr => ?_⟩
  obtain ⟨ents', hs'⟩ := hstop hr
  obtain ⟨ents'', hs''⟩ := hs'.tail (by have := entryBytes_ge hn; omega) hn
  rw [show off + n + (left - n) = off + left by omega]
  exact ⟨ents'', hs''.congr fun i hi => (hb i hi).symm⟩

/-- **One turn of a safe walk**: it is over, the entry is refused, the body leaves
the loop, or the entry fits and the walk goes on safely behind it. -/
theorem wsWalk_succ (fuel : ℕ) (hsize : off + left < u64Size) (h : WalkSafe body s b off left) :
    (left = 0 ∧ wsWalk body (fuel + 1) s b off left = ⟨[], .done, b⟩) ∨
    (32 ≤ left ∧ ∃ e, wsWalk body (fuel + 1) s b off left =
      ⟨[⟨off, left, .error e⟩], .error e, b⟩) ∨
    ∃ info, 40 ≤ info.bytes ∧ info.bytes ≤ left ∧ wseSize info = info.bytes ∧
      entryBytes (entryAt b off).streamControl = some info.bytes ∧
      ((∃ e, wsWalk body (fuel + 1) s b off left = ⟨[⟨off, left, .ok info⟩], .error e, b⟩) ∨
        ((∃ ents, Splits b off ents (off + left)) ∧
          wsWalk body (fuel + 1) s b off left = ⟨[⟨off, left, .ok info⟩], .stopped, b⟩) ∨
        ∃ s' b', (∀ i, off + info.bytes ≤ i → b' i = b i) ∧
          WalkSafe body s' b' (off + info.bytes) (left - info.bytes) ∧
          wsWalk body (fuel + 1) s b off left =
            let w := wsWalk body fuel s' b' (off + info.bytes) (left - info.bytes)
            { w with visits := ⟨off, left, .ok info⟩ :: w.visits }) := by
  by_cases h0 : left = 0
  · exact .inl ⟨h0, by rw [wsWalk, if_pos h0]⟩
  obtain ⟨hslip, hfits⟩ := h.head h0
  have h32 : 32 ≤ left := by
    unfold Slip at hslip
    push Not at hslip
    exact hslip.1
  rcases hok : wseToStreamInfo (entryAt b off).streamControl left with e | info
  · refine .inr (.inl ⟨h32, e, ?_⟩)
    rw [wsWalk, if_neg h0]
    simp only [hok]
  obtain ⟨hfit, hsz, h40⟩ := fits_of_ok (by omega) hslip hok
  have hn := entryBytes_of_ok hok
  obtain ⟨hhang, hstop⟩ := hfits ⟨_, hn, hfit⟩
  refine .inr (.inr ⟨info, h40, hfit, hsz, hn, ?_⟩)
  by_cases hgo : (body s (entryAt b off)).1.goesOn = true
  · -- what the body stores is below the value words of the entry
    have hb : ∀ i, off + info.bytes ≤ i → (body s (entryAt b off)).1.store b off i = b i :=
      fun i hi => BodyResult.store_of_le _ (by omega)
    exact .inr (.inr ⟨_, _, hb, h.tail hn hfit hgo hb,
      wsWalk_goesOn_fits fuel hsize h40 hfit hok hgo⟩)
  · rcases hr : body s (entryAt b off) with ⟨_ | ⟨ino, fileOffset⟩ | _ | e | _, s'⟩ <;>
      simp only [hr, BodyResult.goesOn, not_true] at hgo hhang hstop
    · refine .inr (.inl ⟨hstop trivial, ?_⟩)
      rw [wsWalk, if_neg h0]
      simp only [hok, hr]
    · refine .inl ⟨e, ?_⟩
      rw [wsWalk, if_neg h0]
      simp only [hok, hr]
    · exact absurd rfl hhang

end Turn

/-! ### Whole walks -/

section Walks

variable {σ : Type*} {body : LoopBody σ} {s : σ} {b : Buffer} {off left : ℕ}

/-- Every entry looked at has its header inside; every entry accepted lies
inside and is no longer than what is left. -/
theorem wsWalk_inside (fuel : ℕ) (hsize : off + left < u64Size) (h : WalkSafe body s b off left) :
    ∀ v ∈ (wsWalk body fuel s b off left).visits,
      v.off + 32 ≤ off + left ∧ ∀ info, v.info = .ok info →
        v.off + info.bytes ≤ off + left ∧ wseSize info ≤ v.left := by
  induction fuel generalizing s b off left with
  | zero => simp [wsWalk]
  | succ fuel ih =>
    intro v hv
    rcases wsWalk_succ fuel hsize h with ⟨-, hw⟩ | ⟨h32, e, hw⟩ |
      ⟨info, h40, hfit, hsz, -, ⟨e, hw⟩ | ⟨-, hw⟩ | ⟨s', b', -, hsafe, hw⟩⟩ <;> rw [hw] at hv
    · simp at hv
    · obtain rfl := List.mem_singleton.1 hv
      exact ⟨by simpa using h32, by simp⟩
    · obtain rfl := List.mem_singleton.1 hv
      refine ⟨by simp; omega, fun info' hi => ?_⟩
      obtain rfl := Except.ok.inj hi
      exact ⟨by simpa using hfit, by simpa [hsz] using hfit⟩
    · obtain rfl := List.mem_singleton.1 hv
      refine ⟨by simp; omega, fun info' hi => ?_⟩
      obtain rfl := Except.ok.inj hi
      exact ⟨by simpa using hfit, by simpa [hsz] using hfit⟩
    · rcases List.mem_cons.1 hv with rfl | hv
      · refine ⟨by simp; omega, fun info' hi => ?_⟩
        obtain rfl := Except.ok.inj hi
        exact ⟨by simpa using hfit, by simpa [hsz] using hfit⟩
      · have := ih (by omega) hsafe v hv
        rwa [show off + info.bytes + (left - info.bytes) = off + left by omega] at this

/-- Every turn takes at least an entry off what is left, so the walk ends; and it
ends with an error, unless the bytes split into entries. -/
theorem wsWalk_how (fuel : ℕ) (hsize : off + left < u64Size) (h : WalkSafe body s b off left)
    (hfuel : left ≤ fuel) : (∃ e, (wsWalk body fuel s b off left).how = .error e) ∨
      (∃ ents, Splits b off ents (off + left)) ∧
        (wsWalk body fuel s b off left).how ≠ .running := by
  induction fuel generalizing s b off left with
  | zero =>
    obtain rfl := Nat.le_zero.1 hfuel
    exact .inr ⟨⟨[], .nil off⟩, by simp [wsWalk]⟩
  | succ fuel ih =>
    rcases wsWalk_succ fuel hsize h with ⟨rfl, hw⟩ | ⟨-, e, hw⟩ |
      ⟨info, h40, hfit, -, hn, ⟨e, hw⟩ | ⟨hs, hw⟩ | ⟨s', b', hb, hsafe, hw⟩⟩ <;> rw [hw]
    · exact .inr ⟨⟨[], .nil off⟩, by simp⟩
    · exact .inl ⟨e, rfl⟩
    · exact .inl ⟨e, rfl⟩
    · exact .inr ⟨hs, by simp⟩
    · refine (ih (by omega) hsafe (by omega)).imp_right ?_
      rintro ⟨⟨ents, hs⟩, hrun⟩
      rw [show off + info.bytes + (left - info.bytes) = off + left by omega] at hs
      exact ⟨⟨_, .cons hn (hs.congr hb)⟩, hrun⟩

/-- A walk that is over stays as it is. -/
theorem wsWalk_mono {fuel : ℕ} (h : (wsWalk body fuel s b off left).how ≠ .running) (k : ℕ) :
    wsWalk body (fuel + k) s b off left = wsWalk body fuel s b off left := by
  induction fuel generalizing s b off left with
  | zero =>
    have h0 : left = 0 := by
      by_contra h0
      simp [wsWalk, h0] at h
    subst h0
    cases k <;> simp [wsWalk]
  | succ fuel ih =>
    rw [Nat.add_right_comm fuel 1 k]
    rw [wsWalk] at h
    rw [wsWalk, wsWalk]
    split_ifs at h ⊢ with h0
    · rfl
    · rcases hok : wseToStreamInfo (entryAt b off).streamControl left with e | info
      · rfl
      · simp only [hok] at h ⊢
        rcases hr : body s (entryAt b off) with ⟨_ | ⟨ino, fileOffset⟩ | _ | e | _, s'⟩ <;>
          simp only [hr] at h ⊢
        · rw [ih h]
        · rw [ih h]

/-- The walk comes to what starts behind whole entries that its body goes on past,
and the bytes from there on are as they were. -/
theorem Splits.wsWalk_append {ents : List WsEntry} {off' : ℕ} (hs : Splits b off ents off')
    {b₀ : Buffer} (hb₀ : ∀ i, off ≤ i → b₀ i = b i) {s' : σ}
    (hafter : body.after s ents = some s') (hsize : off + left < u64Size)
    (hle : off' ≤ off + left) :
    ∃ vs b', (∀ i, off' ≤ i → b' i = b i) ∧ ∀ fuel,
      wsWalk body (ents.length + fuel) s b₀ off left =
        let w := wsWalk body fuel s' b' off' (off + left - off')
        { w with visits := vs ++ w.visits } := by
  induction hs generalizing s b₀ left with
  | nil off =>
    obtain rfl := Option.some.inj hafter
    refine ⟨[], b₀, hb₀, fun fuel => ?_⟩
    rw [List.length_nil, Nat.zero_add, Nat.add_sub_cancel_left]
    rfl
  | @cons off n stop ents hn hrest ih =>
    have hn40 := entryBytes_ge hn
    have hle' := hrest.le
    rw [LoopBody.after] at hafter
    split_ifs at hafter with hgo
    rw [← entryAt_congr hb₀] at hn hgo hafter
    obtain ⟨info, hok, hbytes⟩ := wseToStreamInfo_of_fits hn (show n ≤ left by omega)
    have hstore : ∀ i, off + n ≤ i → (body s (entryAt b₀ off)).1.store b₀ off i = b i := fun i hi =>
      (BodyResult.store_of_le _ (by omega)).trans (hb₀ i (by omega))
    obtain ⟨vs, b', hb', hwalk⟩ :=
      ih hstore hafter (show off + n + (left - n) < u64Size by omega) (by omega)
    refine ⟨⟨off, left, .ok info⟩ :: vs, b', hb', fun fuel => ?_⟩
    have hturn := wsWalk_goesOn_fits (ents.length + fuel) hsize (by omega) (by omega) hok hgo
    rw [hbytes, hwalk, show off + n + (left - n) - stop = off + left - stop by omega] at hturn
    rw [List.length_cons, Nat.add_right_comm]
    exact hturn

/-- **Exactly when a walk is safe.** -/
theorem parseSafe_iff_walkSafe {size : ℕ} (hsize : size < u64Size) :
    ParseSafe body s b size ↔ WalkSafe body s b 0 size := by
  have hsize' : 0 + size < u64Size := by omega
  constructor
  · intro safe ents off' s' hs hafter hlt
    obtain ⟨vs, b', hb', hwalk⟩ :=
      hs.wsWalk_append (fun _ _ => rfl) hafter hsize' (by omega)
    -- the visit of the entry at `off'`
    have hmem : ⟨off', 0 + size - off',
        wseToStreamInfo (entryAt b off').streamControl (0 + size - off')⟩ ∈
          (wsWalk body (ents.length + 1) s b 0 size).visits := by
      rw [hwalk 1, wsWalk, if_neg (by omega), entryAt_congr hb']
      refine List.mem_append_right _ ?_
      rcases wseToStreamInfo (entryAt b off').streamControl (0 + size - off') with e | info
      · exact List.mem_singleton_self _
      · rcases body s' (entryAt b off') with ⟨_ | ⟨ino, fileOffset⟩ | _ | e | _, s''⟩ <;>
          exact List.mem_cons_self
    refine ⟨fun hslip => ?_, fun ⟨n, hn, hfit⟩ => ?_⟩
    · rcases hslip.outside (by omega) with hshort | ⟨info, hok, hlong⟩
      · have hhead := safe.header_inside _ _ hmem
        simp only at hhead
        omega
      · have hin := safe.inside _ _ hmem info hok
        simp only at hin
        omega
    · obtain ⟨info, hok, -⟩ := wseToStreamInfo_of_fits hn hfit
      have hhow : ∀ fuel, (wsWalk body (ents.length + (fuel + 1)) s b 0 size).how =
          (wsWalk body (fuel + 1) s' b' off' (0 + size - off')).how := fun fuel => by
        rw [hwalk]
      refine ⟨fun hhang => ?_, fun hstop => ?_⟩
      · obtain ⟨fuel, hends⟩ := safe.ends
        refine hends ?_
        rw [← wsWalk_mono hends (ents.length + 1), Nat.add_comm fuel, Nat.add_assoc,
          Nat.add_comm 1, hhow, wsWalk, if_neg (by omega), entryAt_congr hb']
        rcases hr : body s' (entryAt b off') with ⟨r, s''⟩
        rw [hr] at hhang
        obtain rfl : r = .hang := hhang
        simp only [hok]
      · by_contra hsplit
        rw [Nat.zero_add] at hsplit
        obtain ⟨fuel, e, herr⟩ := safe.rejects hsplit
        have hrun : (wsWalk body fuel s b 0 size).how ≠ .running := by simp [herr]
        rw [← wsWalk_mono hrun (ents.length + 1), Nat.add_comm fuel, Nat.add_assoc,
          Nat.add_comm 1, hhow, wsWalk, if_neg (by omega), entryAt_congr hb'] at herr
        rcases hr : body s' (entryAt b off') with ⟨r, s''⟩
        rw [hr] at hstop
        obtain rfl : r = .stop := hstop
        simp only [hok, hr] at herr
        cases herr
  · intro h
    have hin := fun fuel => wsWalk_inside fuel hsize' h
    simp only [Nat.zero_add] at hin
    have hhow := wsWalk_how size hsize' h le_rfl
    rw [Nat.zero_add] at hhow
    refine ⟨⟨size, ?_⟩, fun fuel v hv => (hin fuel v hv).1,
      fun fuel v hv info hi => ((hin fuel v hv).2 info hi).1,
      fun fuel v hv info hi => ((hin fuel v hv).2 info hi).2, fun hns => ⟨size, ?_⟩⟩
    · rcases hhow with ⟨e, he⟩ | ⟨-, hrun⟩
      · simp [he]
      · exact hrun
    · exact hhow.resolve_right fun h => hns h.1

end Walks

end Sivfs
