/-
# Appending to a write-set

`sivfs_writeset_reserve` and `sivfs_add_to_writeset` (`kern/sivfs_writeset.h`), against
the walk of `Sivfs.Writeset` that reads the entries back.

An entry is appended with the length `sivfs_wse_size` gives it, into a buffer that is
replaced by a larger one as it fills; the allocation can fail at every call.  Walking the
buffer gives the accepted entries back, in order and with every value word, whatever the
allocator hands out.

"The entry's value field should not extend past size bytes from entry", says the comment
on `sivfs_wse_to_stream_info`.  `roundTrips_iff` is exactly when that is checked: a plain
entry is accepted with any `size`, and so is a stream whose length is `2^64` or more and
wraps to at most `size`.
-/

import Sivfs.WritesetBounds
import Sivfs.Lib.Call
import Mathlib.Algebra.BigOperators.Group.List.Basic
import Mathlib.Data.List.Basic

namespace Sivfs

/-! ### The write-set and what is appended to it -/

/-- `struct sivfs_writeset`. -/
structure Writeset where
  /-- `__capacity_bytes`. -/
  capacityBytes : ℕ
  /-- `__size_bytes`, with the disable bit. -/
  sizeBytes : ℕ
  entries : Buffer

/-- Memory after `memcpy(b + o, src, n)`. -/
def memcpy (b : Buffer) (o : ℕ) (src : Buffer) (n : ℕ) : Buffer := fun i =>
  if o ≤ i ∧ i < o + n then src (i - o) else b i

open Call

/-- `sivfs_writeset_reserve`: `alloc` is the memory `kzalloc` or `realloc` hands out, `none`
if there is none.  Both variants keep the `__size_bytes` bytes in use. -/
def writesetReserve (newCapacity : ℕ) (alloc : Option Buffer) : Call Writeset Errno Unit := do
  let ws ← get
  if ws.capacityBytes ≤ newCapacity then
    match alloc with
    | none => fail .enomem
    | some fresh =>
      modify fun ws =>
        { ws with
          capacityBytes :=
            max (max (ws.capacityBytes * 2 % u64Size) (4 * sizeofWsEntry)) newCapacity
          entries := memcpy fresh 0 ws.entries ws.sizeBytes }

/-- The arguments of `sivfs_add_to_writeset`: the bytes from `toAdd` on, and `size`. -/
structure AddArgs where
  toAdd : Buffer
  size : ℕ

/-- `sivfs_add_to_writeset`. -/
def addToWriteset (a : AddArgs) (alloc : Option Buffer) : Call Writeset Errno Unit := do
  let ws ← get
  if wsIsDisabled ws.sizeBytes then
    pure ()
  else
    match wseToStreamInfo (entryAt a.toAdd 0).streamControl a.size with
    | .error e => fail e
    | .ok info =>
      let newSize := (ws.sizeBytes + wseSize info) % u64Size
      writesetReserve newSize alloc
      modify fun ws =>
        { ws with
          entries := memcpy ws.entries ws.sizeBytes a.toAdd (wseSize info)
          sizeBytes := newSize }

/-! ### What a reader makes of it -/

/-- An entry with every value word it carries. -/
structure Record where
  ino : ℕ
  fileOffset : ℕ
  address : ℕ
  streamControl : ℕ
  values : List ℕ
  deriving DecidableEq, Repr

/-- The entry at `o`, which carries `words` value words. -/
def recordAt (b : Buffer) (o words : ℕ) : Record where
  ino := loadWord b o
  fileOffset := loadWord b (o + 8)
  address := loadWord b (o + 16)
  streamControl := loadWord b (o + 24)
  values := (List.range words).map fun i => loadWord b (o + 32 + wordBytes * i)

/-- The entry the walk is at. -/
def visitRecord (b : Buffer) (v : Visit) : Option Record :=
  match v.info with
  | .ok info => some (recordAt b v.off info.valueWords)
  | .error _ => none

/-- The walk over a write-set: the entries it comes to, and how it ends. -/
def Writeset.walk (ws : Writeset) : List Record × WalkEnd :=
  let w := wsWalk readOnly ws.sizeBytes () ws.entries 0 ws.sizeBytes
  (w.visits.filterMap (visitRecord ws.entries), w.how)

/-! ### Calls in a row -/

/-- The value words that a `stream_control` declares. -/
def declaredWords (sc : ℕ) : ℕ := if sc = 0 ∨ sc.testBit 62 then 1 else streamWords sc

namespace AddArgs

/-- `toAdd->stream_control`. -/
def streamControl (a : AddArgs) : ℕ := (entryAt a.toAdd 0).streamControl

/-- The length of the entry, in exact arithmetic. -/
def bytes (a : AddArgs) : ℕ := 32 + wordBytes * declaredWords a.streamControl

/-- The entry to be appended. -/
def record (a : AddArgs) : Record := recordAt a.toAdd 0 (declaredWords a.streamControl)

/-- A plain entry, a stream or a constant stream, with its real length. -/
def WellFormed (a : AddArgs) : Prop := entryBytes a.streamControl = some a.size

/-- The value words extend past `size`, and the size check does not see it: it is made for
streams only, in `size_t` arithmetic. -/
def Slips (a : AddArgs) : Prop :=
  a.size < a.bytes ∧
    (a.streamControl = 0 ∨ a.streamControl.testBit 63 = true ∧ a.bytes % u64Size ≤ a.size)

end AddArgs

/-- Calls in a row, each with what the allocator has for it: the write-set after them, and
the calls that returned `0`. -/
def addAll : Writeset → List (AddArgs × Option Buffer) → Writeset × List AddArgs
  | ws, [] => (ws, [])
  | ws, (a, alloc) :: rest =>
    match addToWriteset a alloc ws with
    | (.ok (), ws') => ((addAll ws' rest).1, a :: (addAll ws' rest).2)
    | (.error _, ws') => addAll ws' rest

/-- Appending and walking are inverse on these calls, whatever the allocator does. -/
structure RoundTrips (calls : List AddArgs) : Prop where
  /-- From an empty write-set, the walk gives the accepted entries back and consumes
  exactly `__size_bytes`. -/
  walk : ∀ ws steps, ws.sizeBytes = 0 → steps.map Prod.fst = calls →
    ((addAll ws steps).2.map AddArgs.bytes).sum < maxCommitSize →
      (addAll ws steps).1.walk = ((addAll ws steps).2.map AddArgs.record, .done) ∧
        ((addAll ws steps).2.map AddArgs.bytes).sum = (addAll ws steps).1.sizeBytes
  /-- A well-formed entry is accepted, unless there is no memory. -/
  accepts : ∀ a ∈ calls, a.WellFormed → ∀ ws fresh,
    ∃ ws', addToWriteset a (some fresh) ws = (.ok (), ws')
  /-- A call that fails, or on a disabled write-set, changes nothing. -/
  unchanged : ∀ a ∈ calls, ∀ ws alloc,
    wsIsDisabled ws.sizeBytes = true ∨ (∃ e ws', addToWriteset a alloc ws = (.error e, ws')) →
      (addToWriteset a alloc).after ws = ws
  /-- An entry that extends past `size` is refused. -/
  rejects : ∀ a ∈ calls, a.size < a.bytes → ∀ ws alloc, wsIsDisabled ws.sizeBytes = false →
    ∃ e, addToWriteset a alloc ws = (.error e, ws)

/-! ### Bytes that agree -/

/-- The words of an entry, from any of its bytes on. -/
theorem loadWord_shift {b b' : Buffer} {o o' n : ℕ} (h : ∀ i < n, b (o + i) = b' (o' + i))
    {d : ℕ} (hd : d + 8 ≤ n) : loadWord b (o + d) = loadWord b' (o' + d) := by
  refine loadWord_eq fun i hi => ?_
  rw [Nat.add_assoc, Nat.add_assoc]
  exact h (d + i) (by omega)

/-- The control word is in the first bytes. -/
theorem streamControl_eq {b b' : Buffer} {o o' n : ℕ} (h : ∀ i < n, b (o + i) = b' (o' + i))
    (hn : 32 ≤ n) : (entryAt b o).streamControl = (entryAt b' o').streamControl :=
  loadWord_shift h (by omega)

/-- A record is in its bytes. -/
theorem recordAt_eq {b b' : Buffer} {o o' words : ℕ}
    (h : ∀ i < 32 + wordBytes * words, b (o + i) = b' (o' + i)) :
    recordAt b o words = recordAt b' o' words := by
  have h0 : loadWord b o = loadWord b' o' := loadWord_shift (d := 0) h (by omega)
  have hv : ∀ i ∈ List.range words,
      loadWord b (o + 32 + wordBytes * i) = loadWord b' (o' + 32 + wordBytes * i) := by
    intro i hi
    have := List.mem_range.1 hi
    rw [Nat.add_assoc, Nat.add_assoc]
    exact loadWord_shift h (by unfold wordBytes; omega)
  simp only [recordAt, h0, loadWord_shift (d := 8) h (by omega),
    loadWord_shift (d := 16) h (by omega), loadWord_shift (d := 24) h (by omega),
    List.map_congr_left hv]

/-! ### Buffers that hold entries -/

/-- The bytes from `off` to `stop` are the entries `rs`. -/
inductive Encodes (b : Buffer) : ℕ → List Record → ℕ → Prop where
  | nil (off : ℕ) : Encodes b off [] off
  | cons {off stop : ℕ} {info : StreamInfo} {rs : List Record} :
      wseToStreamInfo (entryAt b off).streamControl info.bytes = .ok info →
      Encodes b (off + info.bytes) rs stop →
      Encodes b off (recordAt b off info.valueWords :: rs) stop

namespace Encodes

/-- Records go forward. -/
theorem le {b : Buffer} {off stop : ℕ} {rs : List Record} (h : Encodes b off rs stop) :
    off ≤ stop := by
  induction h with
  | nil => exact le_rfl
  | cons _ _ ih => omega

/-- They are in the bytes up to their end. -/
theorem congr {b b' : Buffer} {off stop : ℕ} {rs : List Record} (h : Encodes b off rs stop)
    (hb : ∀ i, off ≤ i → i < stop → b' i = b i) : Encodes b' off rs stop := by
  induction h with
  | nil off => exact .nil off
  | @cons off stop info rs hok hrest ih =>
    have hle := hrest.le
    have heq : ∀ i < info.bytes, b' (off + i) = b (off + i) := fun i hi =>
      hb (off + i) (by omega) (by omega)
    have hsc := streamControl_eq heq (by unfold StreamInfo.bytes; omega)
    have hrec : recordAt b' off info.valueWords = recordAt b off info.valueWords :=
      recordAt_eq heq
    rw [← hrec]
    exact .cons (by rwa [hsc]) (ih fun i h1 h2 => hb i (by omega) h2)

/-- One entry more at the end. -/
theorem snoc {b : Buffer} {off stop : ℕ} {rs : List Record} (h : Encodes b off rs stop)
    {info : StreamInfo}
    (hok : wseToStreamInfo (entryAt b stop).streamControl info.bytes = .ok info) :
    Encodes b off (rs ++ [recordAt b stop info.valueWords]) (stop + info.bytes) := by
  induction h with
  | nil off => exact .cons hok (.nil _)
  | cons h1 _ ih => exact .cons h1 (ih hok)

end Encodes

/-! ### One call -/

theorem memcpy_of_lt {b src : Buffer} {o n i : ℕ} (h : i < o) : memcpy b o src n i = b i :=
  if_neg (by omega)

/-- What is copied is there. -/
theorem memcpy_add {b src : Buffer} {o n i : ℕ} (h : i < n) :
    memcpy b o src n (o + i) = src i := by
  rw [memcpy, if_pos (by omega), Nat.add_sub_cancel_left]

/-- There is room afterwards, and what is in use is kept; it fails for want of memory only,
and leaves the write-set as it was. -/
theorem writesetReserve_wp (n : ℕ) (alloc : Option Buffer) (ws : Writeset) :
    (writesetReserve n alloc).wp
      (fun _ ws' => ws'.sizeBytes = ws.sizeBytes ∧ n ≤ ws'.capacityBytes ∧
        ∀ i < ws.sizeBytes, ws'.entries i = ws.entries i)
      (fun _ ws' => ws' = ws ∧ alloc = none) ws := by
  simp only [writesetReserve, wp_bind, wp_get]
  split_ifs with hcap
  · rcases alloc with _ | fresh
    · simp
    · refine wp_modify.2 ⟨rfl, le_max_right _ _, fun i hi => ?_⟩
      have hcopy : memcpy fresh 0 ws.entries ws.sizeBytes (0 + i) = ws.entries i := memcpy_add hi
      rwa [Nat.zero_add] at hcopy
  · exact wp_pure.2 ⟨rfl, (not_le.1 hcap).le, fun _ _ => rfl⟩

/-- A write-set that is disabled takes nothing. -/
theorem addToWriteset_disabled {a : AddArgs} {alloc : Option Buffer} {ws : Writeset}
    (h : wsIsDisabled ws.sizeBytes = true) : addToWriteset a alloc ws = (.ok (), ws) := by
  simp [addToWriteset, bind_apply, Call.get, h]

/-- On an enabled write-set: the entry stands behind what was there, within the capacity;
or the write-set is as it was, the entry refused or no memory for it. -/
theorem addToWriteset_wp {a : AddArgs} {alloc : Option Buffer} {ws : Writeset}
    (h : wsIsDisabled ws.sizeBytes = false) :
    (addToWriteset a alloc).wp
      (fun _ ws' => ∃ info, wseToStreamInfo a.streamControl a.size = .ok info ∧
        ws'.sizeBytes = (ws.sizeBytes + wseSize info) % u64Size ∧
        ws'.sizeBytes ≤ ws'.capacityBytes ∧
        (∀ i < ws.sizeBytes, ws'.entries i = ws.entries i) ∧
        ∀ i < wseSize info, ws'.entries (ws.sizeBytes + i) = a.toAdd i)
      (fun _ ws' => ws' = ws ∧
        (alloc = none ∨ ∃ e, wseToStreamInfo a.streamControl a.size = .error e)) ws := by
  simp only [addToWriteset, wp_bind, wp_get, h]
  change wp (match wseToStreamInfo a.streamControl a.size with
    | .error e => fail e
    | .ok info => _) _ _ ws
  rcases hw : wseToStreamInfo a.streamControl a.size with e | info
  · exact ⟨rfl, .inr ⟨e, rfl⟩⟩
  refine wp_bind.2 (wp_mono (writesetReserve_wp _ alloc ws) ?_ fun e ws' he => ⟨he.1, .inl he.2⟩)
  rintro - ws' ⟨hsize, hcap, hkeep⟩
  refine wp_modify.2 ⟨info, rfl, rfl, hcap, fun i hi => ?_, fun i hi => ?_⟩
  · exact (memcpy_of_lt (by omega)).trans (hkeep i hi)
  · rw [← hsize]
    exact memcpy_add hi

/-- A call that fails changes nothing. -/
theorem addToWriteset_error {a : AddArgs} {alloc : Option Buffer} {ws ws' : Writeset} {e : Errno}
    (h : addToWriteset a alloc ws = (.error e, ws')) : ws' = ws := by
  by_cases hd : wsIsDisabled ws.sizeBytes = true
  · rw [addToWriteset_disabled hd] at h
    cases (Prod.mk.inj h).1
  · exact ((wp_iff.1 (addToWriteset_wp (by simpa using hd))).2 e ws' h).1

/-! ### What the size check lets through -/

/-- An accepted entry carries the value words it declares. -/
theorem valueWords_of_ok {sc size : ℕ} {info : StreamInfo}
    (h : wseToStreamInfo sc size = .ok info) : info.valueWords = declaredWords sc := by
  unfold declaredWords
  rcases wseToStreamInfo_ok h with ⟨rfl, rfl⟩ | ⟨h0, -, -, rfl, -⟩
  · rfl
  · simp only [unpackStream, h0, false_or]

/-- The length that the readers go by is the one that is declared. -/
theorem bytes_of_ok {sc size : ℕ} {info : StreamInfo} (h : wseToStreamInfo sc size = .ok info) :
    info.bytes = 32 + wordBytes * declaredWords sc := by
  rw [StreamInfo.bytes, valueWords_of_ok h]

/-- An accepted entry that does not slip fits. -/
theorem AddArgs.bytes_le_of_ok {a : AddArgs} {info : StreamInfo} (hslip : ¬a.Slips)
    (h : wseToStreamInfo a.streamControl a.size = .ok info) : a.bytes ≤ a.size := by
  by_contra hlt
  refine hslip ⟨not_le.1 hlt, ?_⟩
  rcases wseToStreamInfo_ok h with ⟨h0, -⟩ | ⟨-, h63, -, -, hsz⟩
  · exact .inl h0
  · rw [wseSize_eq, bytes_of_ok h] at hsz
    exact .inr ⟨h63, hsz⟩

/-- An entry that slips is accepted. -/
theorem AddArgs.Slips.ok {a : AddArgs} (h : a.Slips) :
    ∃ info, wseToStreamInfo a.streamControl a.size = .ok info := by
  obtain ⟨hlt, h0 | ⟨h63, hle⟩⟩ := h
  · exact ⟨_, if_pos h0⟩
  have h0 : a.streamControl ≠ 0 := by
    intro h0
    simp [h0] at h63
  have hdecl : declaredWords a.streamControl =
      if a.streamControl.testBit 62 then 1 else streamWords a.streamControl := by
    simp only [declaredWords, h0, false_or]
  have hbytes : (unpackStream a.streamControl).bytes = a.bytes := by
    rw [AddArgs.bytes, hdecl]
    rfl
  -- with no value word, or one, the length does not wrap
  have hw : streamWords a.streamControl ≠ 0 := by
    intro hw
    rw [AddArgs.bytes, hdecl, hw] at hlt hle
    have : (if a.streamControl.testBit 62 then 1 else 0) ≤ 1 := by
      split_ifs <;> omega
    unfold wordBytes at hlt hle
    rw [Nat.mod_eq_of_lt (by unfold u64Size; omega)] at hle
    omega
  refine ⟨unpackStream a.streamControl, ?_⟩
  rw [wseToStreamInfo, if_neg h0, if_neg (by simp [h63]), if_neg hw,
    if_neg (by rw [wseSize_eq, hbytes]; exact not_lt.2 hle)]

/-- What is accepted is accepted with its own length for `size`. -/
theorem wseToStreamInfo_bytes {sc size : ℕ} {info : StreamInfo}
    (h : wseToStreamInfo sc size = .ok info) : wseToStreamInfo sc info.bytes = .ok info := by
  obtain ⟨info', hok, hbytes⟩ := wseToStreamInfo_of_fits (entryBytes_of_ok h) le_rfl
  rcases wseToStreamInfo_ok h with ⟨rfl, rfl⟩ | ⟨h0, h63, hw, rfl, -⟩
  · rfl
  rcases wseToStreamInfo_ok hok with ⟨h0', -⟩ | ⟨-, -, -, rfl, -⟩
  · exact absurd h0' h0
  · exact hok

/-! ### Runs of calls -/

theorem enabled_of_lt {n : ℕ} (h : n < maxCommitSize) : wsIsDisabled n = false :=
  Nat.testBit_lt_two_pow (h.trans (by decide))

/-- A call that returns `0` on an enabled write-set has put its entry behind the others. -/
theorem Encodes.add {a : AddArgs} {alloc : Option Buffer} {ws ws' : Writeset} {rs : List Record}
    (h : Encodes ws.entries 0 rs ws.sizeBytes)
    (hsize : ws.sizeBytes + a.bytes < maxCommitSize)
    (hadd : addToWriteset a alloc ws = (.ok (), ws')) :
    Encodes ws'.entries 0 (rs ++ [a.record]) ws'.sizeBytes ∧
      ws'.sizeBytes = ws.sizeBytes + a.bytes := by
  obtain ⟨info, hok, hnew, -, hkeep, hput⟩ :=
    (wp_iff.1 (addToWriteset_wp (enabled_of_lt (by omega)))).1 () ws' hadd
  have hmax : maxCommitSize < u64Size := by decide
  have hbytes : info.bytes = a.bytes := bytes_of_ok hok
  have hwse : wseSize info = a.bytes := by
    rw [wseSize_eq, hbytes, Nat.mod_eq_of_lt (by omega)]
  rw [hwse, Nat.mod_eq_of_lt (by omega)] at hnew
  rw [hwse] at hput
  have hput' : ∀ i < a.bytes, ws'.entries (ws.sizeBytes + i) = a.toAdd (0 + i) := fun i hi => by
    rw [Nat.zero_add]
    exact hput i hi
  have hsc : (entryAt ws'.entries ws.sizeBytes).streamControl = a.streamControl :=
    streamControl_eq hput' (by unfold AddArgs.bytes; omega)
  have hrec : recordAt ws'.entries ws.sizeBytes info.valueWords = a.record := by
    rw [valueWords_of_ok hok]
    exact recordAt_eq hput'
  have hold : Encodes ws'.entries 0 rs ws.sizeBytes := h.congr fun i _ hi => hkeep i hi
  have hnext := hold.snoc (by rw [hsc]; exact wseToStreamInfo_bytes hok)
  rw [hrec, hbytes, ← hnew] at hnext
  exact ⟨hnext, hnew⟩

/-- After any run of calls the buffer holds what it held and the accepted entries. -/
theorem Encodes.addAll {ws : Writeset} {rs : List Record} {steps : List (AddArgs × Option Buffer)}
    (h : Encodes ws.entries 0 rs ws.sizeBytes)
    (htot : ws.sizeBytes + ((addAll ws steps).2.map AddArgs.bytes).sum < maxCommitSize) :
    Encodes (addAll ws steps).1.entries 0 (rs ++ (addAll ws steps).2.map AddArgs.record)
        (addAll ws steps).1.sizeBytes ∧
      (addAll ws steps).1.sizeBytes =
        ws.sizeBytes + ((addAll ws steps).2.map AddArgs.bytes).sum := by
  induction steps generalizing ws rs with
  | nil => simpa [Sivfs.addAll] using h
  | cons s steps ih =>
    obtain ⟨a, alloc⟩ := s
    simp only [Sivfs.addAll] at htot ⊢
    rcases hadd : addToWriteset a alloc ws with ⟨e | ⟨⟩, ws'⟩
    · simp only [hadd] at htot ⊢
      obtain rfl := addToWriteset_error hadd
      exact ih h htot
    · simp only [hadd, List.map_cons, List.sum_cons] at htot ⊢
      obtain ⟨h', hsize⟩ := h.add (by omega) hadd
      obtain ⟨henc, hlen⟩ := ih h' (by omega)
      rw [List.append_assoc] at henc
      exact ⟨henc, by omega⟩

/-- The walk over a buffer that holds entries gives them back and ends with no byte left. -/
theorem Encodes.wsWalk_eq {b : Buffer} {off stop : ℕ} {rs : List Record}
    (h : Encodes b off rs stop) (hstop : stop < u64Size) {fuel left : ℕ}
    (hleft : off + left = stop) (hfuel : left ≤ fuel) :
    (wsWalk readOnly fuel () b off left).visits.filterMap (visitRecord b) = rs ∧
      (wsWalk readOnly fuel () b off left).how = .done := by
  induction h generalizing fuel left with
  | nil off =>
    obtain rfl : left = 0 := by omega
    rcases fuel with _ | fuel
    · exact ⟨rfl, rfl⟩
    · exact ⟨rfl, rfl⟩
  | @cons off stop info rs hok hrest ih =>
    have hle := hrest.le
    have hpos : 32 ≤ info.bytes := by
      unfold StreamInfo.bytes
      omega
    obtain ⟨fuel, rfl⟩ : ∃ n, fuel = n + 1 := ⟨fuel - 1, by omega⟩
    have hsz : wseSize info = info.bytes := by rw [wseSize_eq, Nat.mod_eq_of_lt (by omega)]
    have hok' : wseToStreamInfo (entryAt b off).streamControl left = .ok info := by
      obtain ⟨info', hi, hb⟩ := wseToStreamInfo_of_fits (entryBytes_of_ok hok)
        (show info.bytes ≤ left by omega)
      obtain rfl : info' = info := by
        have hsame := wseToStreamInfo_bytes hi
        rw [hb, hok] at hsame
        exact (Except.ok.inj hsame).symm
      exact hi
    have hl : (left + (u64Size - info.bytes)) % u64Size = left - info.bytes := by
      rw [show left + (u64Size - info.bytes) = left - info.bytes + u64Size by omega,
        Nat.add_mod_right, Nat.mod_eq_of_lt (by omega)]
    have hfuel : left - info.bytes ≤ fuel := by omega
    obtain ⟨h1, h2⟩ := ih hstop (by omega) hfuel
    rw [wsWalk, if_neg (by omega)]
    simp only [hok', hsz, hl, Nat.mod_eq_of_lt (show off + info.bytes < u64Size by omega)]
    refine ⟨?_, h2⟩
    have hvisit : visitRecord b ⟨off, left, .ok info⟩ = some (recordAt b off info.valueWords) := rfl
    exact (List.filterMap_cons_some hvisit).trans
      (congrArg (recordAt b off info.valueWords :: ·) h1)

/-! ### The round trip -/

/-- **Appending and walking are inverse, on exactly the calls that do not slip.**  For every
list of calls and every behaviour of the allocator, the walk gives the accepted entries
back, failures and a disabled write-set change nothing, and entries longer than `size` are
refused, if and only if no call has a plain entry that is longer than its `size`, or a stream
that is longer and whose length wraps to at most it. -/
theorem roundTrips_iff (calls : List AddArgs) : RoundTrips calls ↔ ∀ a ∈ calls, ¬a.Slips := by
  refine ⟨fun h a ha hslip => ?_, fun hslip => ⟨?_, ?_, ?_, ?_⟩⟩
  · let ws : Writeset := ⟨0, 0, fun _ => 0⟩
    obtain ⟨e, he⟩ := h.rejects a ha hslip.1 ws (some fun _ => 0) (by decide)
    obtain ⟨info, hok⟩ := hslip.ok
    obtain ⟨-, hcontra | ⟨e', he'⟩⟩ :=
      (wp_iff.1 (addToWriteset_wp (by decide))).2 e ws he
    · cases hcontra
    · rw [hok] at he'
      cases he'
  · rintro ws steps hempty - htot
    have hstart : Encodes ws.entries 0 [] ws.sizeBytes := by
      rw [hempty]
      exact .nil 0
    have hfits : ws.sizeBytes + ((addAll ws steps).2.map AddArgs.bytes).sum < maxCommitSize := by
      omega
    obtain ⟨henc, hlen⟩ := hstart.addAll hfits
    rw [hempty, Nat.zero_add] at hlen
    have hmax : maxCommitSize < u64Size := by decide
    obtain ⟨hrecords, hdone⟩ := henc.wsWalk_eq (by omega) (Nat.zero_add _) le_rfl
    exact ⟨Prod.ext hrecords hdone, hlen.symm⟩
  · intro a ha hwf ws fresh
    by_cases hd : wsIsDisabled ws.sizeBytes = true
    · exact ⟨ws, addToWriteset_disabled hd⟩
    obtain ⟨info, hok, -⟩ := wseToStreamInfo_of_fits hwf le_rfl
    -- with memory and an accepted entry there is no way to fail
    refine (exists_of_wp (Q := fun _ _ => True) ?_).elim fun _ h => h.imp fun _ h => h.1
    refine wp_mono (addToWriteset_wp (by simpa using hd)) (fun _ _ _ => trivial) ?_
    rintro e ws' ⟨-, hnone | ⟨e', he⟩⟩
    · cases hnone
    · rw [hok] at he
      cases he
  · rintro a ha ws alloc (hd | ⟨e, ws', he⟩)
    · rw [Call.after, addToWriteset_disabled hd]
    · rw [Call.after, he]
      exact addToWriteset_error he
  · intro a ha hlong ws alloc hd
    rcases hadd : addToWriteset a alloc ws with ⟨e | ⟨⟩, ws'⟩
    · exact ⟨e, by rw [addToWriteset_error hadd]⟩
    · obtain ⟨info, hok, -⟩ := (wp_iff.1 (addToWriteset_wp hd)).1 () ws' hadd
      have := AddArgs.bytes_le_of_ok (hslip a ha) hok
      omega

/-- A plain entry of 40 bytes is accepted with a `size` of 32: the value word lies past it. -/
theorem not_roundTrips_short : ¬RoundTrips [⟨fun _ => 0, 32⟩] := by
  intro h
  obtain ⟨e, he⟩ := h.rejects ⟨fun _ => 0, 32⟩ List.mem_cons_self (by decide) ⟨0, 0, fun _ => 0⟩
    (some fun _ => 0) (by decide)
  cases (Prod.mk.inj he).1

end Sivfs
