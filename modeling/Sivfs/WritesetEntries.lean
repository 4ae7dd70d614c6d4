/-
# A write-set as a list of entries

Where no entry escapes the size check, every walk over the bytes of a write-set
comes to the same entries one after another (`entriesFrom`).  The readers of the log
are given as loops over this list: at each entry they call `sivfs_wse_to_stream_info`
with the bytes from there on (`headInfo`).

An entry that is not accepted ends every walk, whatever is wrong with it.  In the
list it stands with a malformed `stream_control` (`refused`), so that the loops
over the list end there too.
-/

import Sivfs.WritesetBounds

namespace Sivfs

/-! ### Lists -/

/-- The bytes of a write-set. -/
def wsBytes : List WsEntry → ℕ
  | [] => 0
  | ent :: ws => (entryBytes ent.streamControl).getD sizeofWsEntry + wsBytes ws

/-- `sivfs_wse_to_stream_info` on the first entry of what is left. -/
def headInfo (ent : WsEntry) (ws : List WsEntry) : Except Errno StreamInfo :=
  wseToStreamInfo ent.streamControl (wsBytes (ent :: ws))

/-- An entry of a write-set is accepted if it is well-formed. -/
theorem headInfo_ok {ent : WsEntry} (h : (entryBytes ent.streamControl).isSome)
    (ws : List WsEntry) : ∃ info, headInfo ent ws = .ok info := by
  obtain ⟨n, hn⟩ := Option.isSome_iff_exists.1 h
  have hfit : n ≤ wsBytes (ent :: ws) := by
    rw [wsBytes, hn]
    exact Nat.le_add_right _ _
  obtain ⟨info, hinfo, -⟩ := wseToStreamInfo_of_fits hn hfit
  exact ⟨info, hinfo⟩

/-- An entry that is accepted has a length. -/
theorem isSome_of_headInfo {ent : WsEntry} {ws : List WsEntry} {info : StreamInfo}
    (h : headInfo ent ws = .ok info) : (entryBytes ent.streamControl).isSome := by
  rw [entryBytes_of_ok h]
  rfl

/-- The only error is `-EINVAL`, of an entry that is not well-formed. -/
theorem headInfo_error {ent : WsEntry} {ws : List WsEntry} {e : Errno}
    (h : headInfo ent ws = .error e) : e = .einval ∧ entryBytes ent.streamControl = none := by
  refine ⟨wseToStreamInfo_error h, ?_⟩
  by_contra hsome
  obtain ⟨info, hok⟩ := headInfo_ok (Option.isSome_iff_ne_none.2 hsome) ws
  rw [h] at hok
  cases hok

/-! ### From bytes to lists -/

/-- The entry as one that no walk gets past: whatever it is that keeps an entry from
being accepted, nothing else of it is looked at. -/
def refused (ent : WsEntry) : WsEntry := { ent with streamControl := 1 }

/-- The entries that a walk from `off` over `left` bytes comes to. -/
def entriesFrom : ℕ → Buffer → ℕ → ℕ → List WsEntry
  | 0, _, _, _ => []
  | fuel + 1, b, off, left =>
    if left = 0 then []
    else
      match wseToStreamInfo (entryAt b off).streamControl left with
      | .error _ => [refused (entryAt b off)]
      | .ok info =>
        entryAt b off :: entriesFrom fuel b (off + wseSize info) (left - wseSize info)

/-- The write-set as a list. -/
def LogWriteset.entries (w : LogWriteset) : List WsEntry :=
  entriesFrom w.sizeBytes w.mem 0 w.sizeBytes

end Sivfs
