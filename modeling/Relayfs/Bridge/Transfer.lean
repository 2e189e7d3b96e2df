/-
  File:      Relayfs/Bridge/Transfer.lean
  Subject:   A FILE THERE AND BACK (bridge/src/mcp.rs, `upload_file` and `download_file`): where no
             step fails, an upload comes to its end, and what is downloaded is what was uploaded.

  The local source is read in pieces of any size, as `File::read` may return them.

  * `TransferEvent.Succeeds` -- a step of the upload of a content, none of which fails;
  * `Sent` -- what has been sent, phase by phase;
  * `UploadFile.rank` -- every own step is one less to come;
  * **`transfer_round_trip`** -- the upload ends, and a download of its path ends with its source.
-/
import Relayfs.Bridge.Download

namespace Relayfs

open Lib

/-! ## 1. Steps that do not fail -/

/-- A step of the upload itself. -/
def TransferEvent.own : TransferEvent → Bool
  | .late .. | .other .. => false
  | _ => true

/-- **No step fails**, and the local source has a content: a read returns bytes from where the last
    one ended. -/
def TransferEvent.Succeeds (content : List UInt8) (st : TransferState) : TransferEvent → Prop
  | .openSource result => result = .ok ()
  | .readSource result =>
      ∃ n, Returns content st.source.length transferChunkBytes n ∧
        result = .ok ((content.drop st.source.length).take n)
  | .answer fault => fault = none
  | .lose _ => False
  | .late .. | .other .. => True

/-- **What has been sent of a content**, phase by phase. -/
def Sent (args : UploadFileArgs) (temp : String) (content : List UInt8) (st : TransferState) :
    Prop :=
  st.late = [] ∧
    match st.upload with
    | .opening | .creating => st.source = []
    | .reading offset =>
        offset ≤ content.length ∧ st.source = content.take offset ∧
          st.files temp = some (content.take offset)
    | .writing offset data =>
        offset + data.length ≤ content.length ∧ 0 < data.length ∧
          data.length ≤ transferChunkBytes ∧ data = (content.drop offset).take data.length ∧
          st.source = content.take (offset + data.length) ∧
          st.files temp = some (content.take offset)
    | .truncating offset | .installing offset =>
        offset = content.length ∧ st.files temp = some content
    | .done (.ok bytes) =>
        bytes = content.length ∧ st.files args.remotePath = some content ∧ st.files temp = none
    | .removing _ | .done (.error _) => False

/-- The steps an upload of `len` bytes has ahead of it. -/
def UploadFile.rank (len : Nat) : UploadFile → Nat
  | opening => 2 * len + 5
  | creating => 2 * len + 4
  | reading offset => 2 * (len - offset) + 3
  | writing offset data => 2 * (len - (offset + data.length)) + 4
  | truncating _ => 2
  | installing _ | removing _ => 1
  | done _ => 0

section Upload

variable {args : UploadFileArgs} {temp : String} {content : FileContent} {st : TransferState}

/-- The request a phase waits for is executed, and the upload is in the next phase. -/
theorem next_answer {req : BridgeRequest} {files : Files} {v : Json}
    (hreq : st.upload.request args temp = some req)
    (hexec : execute st.files req none = some (files, .ok v)) :
    st.next args temp (.answer none)
      = { st with upload := st.upload.returned (.ok v), files := files } := by
  simp [TransferState.next, hreq, hexec]

/-- Bytes that follow what is there. -/
theorem take_append_piece {bytes : List UInt8} {offset n : Nat} :
    bytes.take offset ++ (bytes.drop offset).take n = bytes.take (offset + n) :=
  List.take_add.symm

/-- **What the target does with each request**: it takes the piece, the size and the name. -/
theorem Sent.executes (h : Sent args temp content.bytes st) {req : BridgeRequest}
    (hreq : st.upload.request args temp = some req) :
    ∃ files v, execute st.files req none = some (files, .ok v) ∧
      match st.upload with
      | .creating => files = Function.update st.files temp (some [])
      | .writing offset data =>
          files = Function.update st.files temp
            (some (content.bytes.take (offset + data.length)))
      | .truncating _ => files temp = some content.bytes
      | .installing _ =>
          files = Function.update (Function.update st.files temp none) args.remotePath
            (some content.bytes)
      | _ => True := by
  obtain ⟨upload, files, late, source, ended⟩ := st
  obtain ⟨-, h⟩ := h
  cases upload with
  | opening | reading | done => cases hreq
  | removing => exact h.elim
  | creating =>
    cases hreq
    have hempty : payload "" = .ok [] := @payload_encode [] (by decide)
    refine ⟨Function.update files temp (some []), bytesWritten 0, ?_, rfl⟩
    simp [execute, wireAnswer, Agent.writeFile, hempty, Except.mapError]
  | writing offset data =>
    cases hreq
    obtain ⟨hle, -, hchunk, hdata, -, htemp⟩ := h
    have hsmall := content.small
    have hlen : (content.bytes.take offset).length = offset := by
      rw [List.length_take]
      omega
    have hpayload : payload (Base64.encode data) = .ok data :=
      payload_encode (hchunk.trans (by decide))
    have hwrote : Lib.writeAt (content.bytes.take offset) offset data
        = content.bytes.take (offset + data.length) := by
      have hend := writeAt_end (content.bytes.take offset) data
      rw [hlen] at hend
      rw [hend, hdata, take_append_piece, ← hdata]
    have htemp : files temp = some (content.bytes.take offset) := htemp
    have hseek : ¬2 ^ 63 ≤ offset := by omega
    refine ⟨_, bytesWritten data.length, ?_, rfl⟩
    simp only [execute, wireAnswer, Agent.writeAt, hpayload, htemp, if_neg hseek, hwrote]
    rfl
  | truncating offset =>
    cases hreq
    obtain ⟨rfl, htemp⟩ := h
    have htemp : files temp = some content.bytes := htemp
    refine ⟨Function.update files temp (some content.bytes), .null, ?_, Function.update_self ..⟩
    simp [execute, wireAnswer, Agent.truncate, htemp, Except.mapError]
  | installing offset =>
    cases hreq
    obtain ⟨rfl, htemp⟩ := h
    have htemp : files temp = some content.bytes := htemp
    refine ⟨_, .null, ?_, rfl⟩
    simp [execute, wireAnswer, Agent.rename, htemp, Except.mapError]

variable {e : TransferEvent} {st' : TransferState}

/-- **A step keeps what has been sent, and an own step is one less to come.** -/
theorem Sent.step (h : Sent args temp content.bytes st) (hne : temp ≠ args.remotePath)
    (hs : Moves (TransferState.permits args temp) (TransferState.next args temp) st e st')
    (hok : e.Succeeds content.bytes st) :
    Sent args temp content.bytes st' ∧
      st'.upload.rank content.bytes.length + (if e.own then 1 else 0) ≤
        st.upload.rank content.bytes.length := by
  obtain ⟨hperm, rfl⟩ := hs
  cases e with
  | lose error => exact hok.elim
  | late req fault =>
    rw [TransferState.permits, h.1] at hperm
    cases hperm.1
  | other path new =>
    obtain ⟨hpath, hdest⟩ := hperm
    obtain ⟨upload, files, late, source, ended⟩ := st
    have htemp : Function.update files path new temp = files temp :=
      Function.update_of_ne hpath.symm _ _
    have hremote : Function.update files path new args.remotePath = files args.remotePath :=
      Function.update_of_ne hdest.symm _ _
    refine ⟨?_, Nat.le_refl _⟩
    unfold Sent at h ⊢
    simpa only [TransferState.next, htemp, hremote] using h
  | openSource result =>
    obtain ⟨upload, files, late, source, ended⟩ := st
    obtain rfl : result = .ok () := hok
    cases upload with
    | opening => exact ⟨h, Nat.le_refl _⟩
    | _ => cases hperm
  | readSource result =>
    obtain ⟨n, hn, rfl⟩ := hok
    obtain ⟨upload, files, late, source, ended⟩ := st
    cases upload with
    | reading offset =>
      obtain ⟨hlate, hle, hsource, htemp⟩ := h
      have hsource : source = content.bytes.take offset := hsource
      have hlen : source.length = offset := by
        rw [hsource, List.length_take]
        omega
      simp only [hlen] at hn hperm ⊢
      have hthere := hn.there
      by_cases hend : n = 0
      · -- a read of no bytes is one at the end
        have hoffset : offset = content.bytes.length := by
          by_contra hlt
          have := hn.some (by omega) (by decide)
          omega
        subst hend hoffset
        refine ⟨⟨hlate, rfl, ?_⟩, ?_⟩
        · rw [List.take_length] at htemp
          exact htemp
        · simp [TransferState.next, UploadFile.read, UploadFile.rank, TransferEvent.own]
      · have hlength : ((content.bytes.drop offset).take n).length = n := by
          rw [List.length_take, List.length_drop]
          omega
        obtain ⟨b, rest, hdata⟩ : ∃ b rest, (content.bytes.drop offset).take n = b :: rest := by
          refine List.exists_cons_of_length_pos ?_
          omega
        have hread : UploadFile.read args offset (.ok ((content.bytes.drop offset).take n))
            = .writing offset ((content.bytes.drop offset).take n) := by
          rw [hdata]
          rfl
        simp only [TransferState.next, hread]
        refine ⟨⟨hlate, ?_⟩, ?_⟩
        · refine ⟨by omega, by omega, hlength.trans_le hn.fits, by rw [hlength], ?_, htemp⟩
          rw [hlength, hsource]
          exact take_append_piece
        · simp only [UploadFile.rank, TransferEvent.own, hlength]
          simp
          omega
    | _ => cases hperm.1
  | answer fault =>
    obtain rfl : fault = none := hok
    obtain ⟨req, hreq, -⟩ := hperm
    obtain ⟨files', v, hexec, heffect⟩ := h.executes hreq
    rw [next_answer hreq hexec]
    obtain ⟨upload, files, late, source, ended⟩ := st
    obtain ⟨hlate, h⟩ := h
    cases upload with
    | opening | reading | done => cases hreq
    | removing => exact h.elim
    | creating =>
      have heffect : files' = Function.update files temp (some []) := heffect
      have hsource : source = [] := h
      refine ⟨⟨hlate, Nat.zero_le _, by simpa using hsource, ?_⟩, ?_⟩
      · simp [heffect]
      · simp [UploadFile.returned, UploadFile.rank, TransferEvent.own]
    | writing offset data =>
      obtain ⟨hle, hpos, hchunk, hdata, hsource, htemp⟩ := h
      have hsmall := content.small
      have heffect : files' = Function.update files temp
        (some (content.bytes.take (offset + data.length))) := heffect
      have hwrap : (offset + data.length) % 2 ^ 64 = offset + data.length :=
        Nat.mod_eq_of_lt (by omega)
      simp only [UploadFile.returned, hwrap]
      refine ⟨⟨hlate, hle, hsource, ?_⟩, ?_⟩
      · simp [heffect]
      · simp [UploadFile.rank, TransferEvent.own]
    | truncating offset =>
      exact ⟨⟨hlate, h.1, heffect⟩, Nat.le_refl _⟩
    | installing offset =>
      have heffect : files' = Function.update (Function.update files temp none) args.remotePath
        (some content.bytes) := heffect
      refine ⟨⟨hlate, h.1, ?_, ?_⟩, Nat.le_refl _⟩
      · simp [heffect]
      · simp [heffect, Function.update_of_ne hne]

variable {files : Files} {hist : List (TransferState × TransferEvent)}

/-- **The run**: what has been sent, and how many own steps there have been. -/
theorem TransferRun.sent (h : TransferRun args temp files hist st) (hne : temp ≠ args.remotePath)
    (hok : ∀ x ∈ hist, x.2.Succeeds content.bytes x.1) :
    Sent args temp content.bytes st ∧
      hist.countP (·.2.own) + st.upload.rank content.bytes.length ≤
        2 * content.bytes.length + 5 := by
  induction h with
  | start h0 =>
    obtain rfl := h0
    exact ⟨⟨rfl, rfl⟩, by simp [TransferState.start, UploadFile.rank]⟩
  | @step hist s s' e hr hs ih =>
    rw [List.forall_mem_cons] at hok
    obtain ⟨hsent, hcount⟩ := ih hok.2
    obtain ⟨hsent', hrank⟩ := hsent.step hne hs hok.1
    refine ⟨hsent', ?_⟩
    rw [List.countP_cons]
    dsimp only at hrank ⊢
    omega

/-- An upload that is not at its end can go on. -/
theorem Sent.enabled (h : Sent args temp content.bytes st)
    (hopen : ∀ result, st.upload ≠ .done result) :
    ∃ e : TransferEvent, e.own = true ∧ st.permits args temp e ∧ e.Succeeds content.bytes st := by
  have hcalls : ∀ req, st.upload.request args temp = some req → ∃ e : TransferEvent,
      e.own = true ∧ st.permits args temp e ∧ e.Succeeds content.bytes st := by
    intro req hreq
    obtain ⟨files', v, hexec, -⟩ := h.executes hreq
    exact ⟨.answer none, rfl, ⟨req, hreq, by simp [hexec]⟩, rfl⟩
  cases hu : st.upload with
  | opening => exact ⟨.openSource (.ok ()), rfl, by simp [TransferState.permits, hu,
      UploadFile.opens], rfl⟩
  | creating | writing | truncating | installing => exact hcalls _ (by rw [hu]; rfl)
  | reading offset =>
    let n := min transferChunkBytes (content.bytes.length - st.source.length)
    have hn : Returns content.bytes st.source.length transferChunkBytes n :=
      AllThere.returns rfl
    refine ⟨.readSource (.ok ((content.bytes.drop st.source.length).take n)), rfl, ⟨by simp [hu,
      UploadFile.reads], ?_⟩, n, hn, rfl⟩
    intro data hdata
    cases hdata
    exact (List.length_take_le _ _).trans hn.fits
  | removing error =>
    rw [Sent, hu] at h
    exact h.2.elim
  | done result => exact absurd hu (hopen result)

end Upload

/-! ## 2. There and back -/

/-- **What is uploaded is what is downloaded.** An upload of a content none of whose steps fails,
    however the local source is read, takes at most so many steps, can go on until it has
    returned, and has then returned the length; the remote path has the content, and there is no
    temporary file. A download of the path then, with a target that reads what it has, returns
    the same number, and the local destination is the source. -/
theorem transfer_round_trip {up : UploadFileArgs} {down : DownloadFileArgs} {rnd rnd' : Nat}
    {files : Files} {locals : LocalFiles} {content : FileContent} {unreadable : String}
    {uhist : List (TransferState × TransferEvent)} {ust : TransferState}
    {dhist : List (DownloadState × DownloadEvent)} {dst : DownloadState}
    (hup : TransferRun up (up.remoteTemp rnd) files uhist ust)
    (hok : ∀ x ∈ uhist, x.2.Succeeds content.bytes x.1)
    (hdown : DownloadRun down (down.temp rnd') locals dhist dst)
    (hserved : ∀ x ∈ dhist, x.2.Succeeds ∧ ∃ stored : FileContent,
      ust.files up.remotePath = some stored.bytes ∧
        Serves down unreadable stored AllThere x.1 x.2) :
    uhist.countP (·.2.own) ≤ 2 * content.bytes.length + 5 ∧
    ((∀ result, ust.upload ≠ .done result) → ∃ e : TransferEvent, e.own = true ∧
      ust.permits up (up.remoteTemp rnd) e ∧ e.Succeeds content.bytes ust) ∧
    ∀ result, ust.upload = .done result →
      result = .ok content.bytes.length ∧ ust.files up.remotePath = some content.bytes ∧
      ust.files (up.remoteTemp rnd) = none ∧
      ∀ result', dst.download = .done result' →
        result' = .ok content.bytes.length ∧ dst.files down.dest = some content.bytes := by
  obtain ⟨hsent, hcount⟩ := TransferRun.sent hup (up.remoteTemp_ne rnd) hok
  refine ⟨by omega, hsent.enabled, fun result hdone => ?_⟩
  rw [Sent, hdone] at hsent
  cases result with
  | error e => exact hsent.2.elim
  | ok bytes =>
    obtain ⟨-, rfl, hfile, htemp⟩ := hsent
    refine ⟨rfl, hfile, htemp, fun result' hdone' => ?_⟩
    -- what the target has stored is the source
    have hall : ∀ x ∈ dhist, x.2.Succeeds ∧ Serves down unreadable content AllThere x.1 x.2 := by
      intro x hx
      obtain ⟨hsucceeds, ⟨bytes, small⟩, hstored, hserves⟩ := hserved x hx
      have hbytes : content.bytes = bytes := Option.some.inj (hfile.symm.trans hstored)
      obtain ⟨own, ownSmall⟩ := content
      obtain rfl : own = bytes := hbytes
      exact ⟨hsucceeds, hserves⟩
    have hgood : ∀ x ∈ dhist, x.2.Succeeds ∧ Serves down unreadable content Returns x.1 x.2 :=
      fun x hx => ⟨(hall x hx).1, (hall x hx).2.mono AllThere.returns⟩
    have hfetched := hdown.fetched hgood
    rw [Fetched, hdone'] at hfetched
    cases result' with
    | error e => exact hfetched.elim
    | ok n =>
      obtain ⟨hle, hshort, hdest⟩ := hfetched
      have hwhole : ¬n < content.bytes.length := fun hlt => by
        obtain ⟨x, hx, hread⟩ := hshort.mpr hlt
        exact (hall x hx).2.not_short hread
      obtain rfl : n = content.bytes.length := by omega
      rw [List.take_length] at hdest
      exact ⟨rfl, hdest⟩

/-! A file of two bytes, read byte by byte. -/

def twoBytes : FileContent := ⟨[7, 8], by decide⟩

/-- The steps of its upload, the newest first. -/
def sendTwo : List TransferEvent :=
  [.answer none, .answer none, .readSource (.ok []), .answer none, .readSource (.ok [8]),
    .answer none, .readSource (.ok [7]), .answer none, .openSource (.ok ())]

def sentTwo : List (TransferState × TransferEvent) × TransferState :=
  replay (TransferState.next smallUpload (smallUpload.remoteTemp 5)) (.start fun _ => none) sendTwo

def fetchTwo : DownloadFileArgs := ⟨"/b", "out", none⟩

/-- The steps of its download. -/
def fetchTwoSteps : List DownloadEvent :=
  [.rename (.ok ()), .sync (.ok ()), .write none,
    .answer (readAnswer "" (.readFile "/b" (some 0) (some transferChunkBytes))
      ⟨.ok twoBytes, none, .ok 2⟩) "", .create (.ok ())]

def fetchedTwo : List (DownloadState × DownloadEvent) × DownloadState :=
  replay (DownloadState.next fetchTwo (fetchTwo.temp 5)) ⟨.first fetchTwo, fun _ => none⟩
    fetchTwoSteps

theorem sendTwo_succeeds : ∀ x ∈ sentTwo.1, x.2.Succeeds twoBytes.bytes x.1 := by
  intro x hx
  simp only [sentTwo, sendTwo, replay, List.mem_cons, List.not_mem_nil, or_false] at hx
  rcases hx with rfl | rfl | rfl | rfl | rfl | rfl | rfl | rfl | rfl
  · exact rfl
  · exact rfl
  · exact ⟨0, ⟨by decide, by decide, by decide⟩, rfl⟩
  · exact rfl
  · exact ⟨1, ⟨by decide, by decide, by decide⟩, rfl⟩
  · exact rfl
  · exact ⟨1, ⟨by decide, by decide, by decide⟩, rfl⟩
  · exact rfl
  · exact rfl

theorem fetchTwo_served : ∀ x ∈ fetchedTwo.1, x.2.Succeeds ∧ ∃ stored : FileContent,
    sentTwo.2.files "/b" = some stored.bytes ∧ Serves fetchTwo "" stored AllThere x.1 x.2 := by
  have hstored : sentTwo.2.files "/b" = some twoBytes.bytes := by decide
  intro x hx
  simp only [fetchedTwo, fetchTwoSteps, replay, List.mem_cons, List.not_mem_nil, or_false] at hx
  rcases hx with rfl | rfl | rfl | rfl | rfl
  · exact ⟨rfl, twoBytes, hstored, fun _ _ he => by cases he⟩
  · exact ⟨rfl, twoBytes, hstored, fun _ _ he => by cases he⟩
  · exact ⟨rfl, twoBytes, hstored, fun _ _ he => by cases he⟩
  · refine ⟨trivial, twoBytes, hstored, fun result why he offset hcalling => ?_⟩
    obtain rfl : 0 = offset := DownloadFile.calling.inj hcalling
    injection he with hresult
    refine ⟨2, ?_, hresult.symm⟩
    unfold AllThere
    decide
  · exact ⟨rfl, twoBytes, hstored, fun _ _ he => by cases he⟩

theorem transfer_round_trip_two : fetchedTwo.2.files fetchTwo.dest = some [7, 8] := by
  have hsend : Permitted (TransferState.permits smallUpload (smallUpload.remoteTemp 5))
      (TransferState.next smallUpload (smallUpload.remoteTemp 5)) (.start fun _ => none)
      sendTwo := by decide
  have hfetch : Permitted (DownloadState.permits fetchTwo (fetchTwo.temp 5))
      (DownloadState.next fetchTwo (fetchTwo.temp 5)) ⟨.first fetchTwo, fun _ => none⟩
      fetchTwoSteps := by decide
  have hstart : TransferInit (fun _ => none) (.start fun _ => none) := rfl
  have hup : TransferRun smallUpload (smallUpload.remoteTemp 5) (fun _ => none) sentTwo.1
      sentTwo.2 := Run.of_replay hstart hsend
  have hdown : DownloadRun fetchTwo (fetchTwo.temp 5) (fun _ => none) fetchedTwo.1
      fetchedTwo.2 := Run.of_replay ⟨rfl, rfl⟩ hfetch
  have hback := transfer_round_trip hup sendTwo_succeeds hdown fetchTwo_served
  exact ((hback.2.2 (.ok 2) rfl).2.2.2 (.ok 2) rfl).2

end Relayfs
