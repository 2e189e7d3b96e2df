/-
  File:      Relayfs/Agent/StreamOutput.lean
  Subject:   WHAT IS RECORDED OF A CHILD'S OUTPUT (agent/src/commands.rs, `stream_output`).

  The child has two sequences of bytes to write. They arrive in chunks of any size; whenever one
  of the two readers has a line, or is at its end, the loop may take its branch. A notification is
  sent or not, which nothing looks at.

  * `LineReader`, `nextLine` -- one stream, and what `next_line` makes of it;
  * `StreamOutput`, `StreamStep` -- the two readers, the output and the notifications, step by step;
  * `StreamInv` -- the lines taken off so far are those recorded, and all of them were UTF-8;
  * `notified_of_done` -- of a stream that has ended the lines before its first broken one;
  * `Faithful`, `faithful_iff` -- all lines are recorded exactly when none is broken.
-/
import Relayfs.Agent.CommandPipes
import Relayfs.Lib.Lines
import Relayfs.Lib.Run

namespace Relayfs

open Lib

/-! ## 1. The loop -/

/-- One stream: what the child has still to write, what has arrived and is not taken off as a line
    yet, whether the child has closed it, and `stdout_done` or `stderr_done`. -/
structure LineReader where
  coming : List UInt8
  held : List UInt8
  closed : Bool
  done : Bool

/-- `next_line` has something to return. -/
def LineReader.Ready (r : LineReader) : Prop := 10 ∈ r.held ∨ r.closed = true

/-- `next_line`: a line that is no UTF-8 is an error. -/
def nextLine (held : List UInt8) : Except Unit (Option String) :=
  if held = [] then .ok none
  else match fromUtf8 (firstLine held) with
    | some line => .ok (some (stripEol line))
    | none => .error ()

/-- A notification `command_output`, and whether it could be sent. -/
structure OutputNotification where
  stream : OutputStream
  data : String
  delivered : Bool

/-- **The state of `stream_output`.** `notified` are the notifications it has attempted, oldest
    first. -/
structure StreamOutput where
  reader : OutputStream → LineReader
  output : String
  notified : List OutputNotification

inductive StreamEvent where
  /-- Bytes that the child has written arrive. -/
  | arrive (o : OutputStream) (n : Nat)
  /-- The child has written all and closes the stream. -/
  | close (o : OutputStream)
  /-- `select!` takes the branch of a stream. -/
  | turn (o : OutputStream) (delivered : Bool)

namespace StreamOutput

/-- Nothing has arrived. -/
def start (written : OutputStream → List UInt8) : StreamOutput :=
  ⟨fun o => ⟨written o, [], false, false⟩, "", []⟩

variable (s : StreamOutput)

def put (o : OutputStream) (r : LineReader) : StreamOutput :=
  { s with reader := Function.update s.reader o r }

/-- A branch of `select!`. -/
def turn (o : OutputStream) (delivered : Bool) : StreamOutput :=
  let r := s.reader o
  match nextLine r.held with
  | .ok (some line) =>
      { s.put o { r with held := afterLine r.held } with
        output := s.output ++ (line ++ "\n")
        notified := s.notified ++ [⟨o, line ++ "\n", delivered⟩] }
  | .ok none => s.put o { r with done := true }
  | .error () => s.put o { r with done := true }

def permits : StreamEvent → Prop
  | .arrive o n => n ≤ (s.reader o).coming.length
  | .close o => (s.reader o).coming = []
  | .turn o _ => (s.reader o).done = false ∧ (s.reader o).Ready

def next : StreamEvent → StreamOutput
  | .arrive o n =>
      let r := s.reader o
      s.put o { r with coming := r.coming.drop n, held := r.held ++ r.coming.take n }
  | .close o => s.put o { s.reader o with closed := true }
  | .turn o delivered => s.turn o delivered

/-- The loop has ended. -/
def Returned : Prop := ∀ o, (s.reader o).done = true

/-- The texts of the notifications for a stream. -/
def texts (o : OutputStream) : List String :=
  (s.notified.filter fun n => n.stream = o).map OutputNotification.data

end StreamOutput

instance (s : StreamOutput) : ∀ e, Decidable (s.permits e)
  | .arrive o n => inferInstanceAs (Decidable (n ≤ (s.reader o).coming.length))
  | .close o => inferInstanceAs (Decidable ((s.reader o).coming = []))
  | .turn o _ => inferInstanceAs (Decidable ((s.reader o).done = false ∧
      (10 ∈ (s.reader o).held ∨ (s.reader o).closed = true)))

/-- **One step.** -/
abbrev StreamStep : StreamOutput → StreamEvent → StreamOutput → Prop :=
  Moves StreamOutput.permits StreamOutput.next

def StreamInit (written : OutputStream → List UInt8) (s : StreamOutput) : Prop := s = .start written

abbrev StreamRun (written : OutputStream → List UInt8) (hist : List (StreamOutput × StreamEvent))
    (s : StreamOutput) : Prop :=
  Run (StreamInit written) StreamStep hist s

/-! ## 2. What is recorded -/

/-- What is recorded for a line. -/
def outputLine (line : List UInt8) : String := lineText line ++ "\n"

/-- The line is UTF-8. -/
def Readable (line : List UInt8) : Bool := (fromUtf8 line).isSome

/-- **The output is faithful**: it is the lines of the two streams mixed, each in order and whole,
    and it is what the notifications say one after the other. -/
def Faithful (written : OutputStream → List UInt8) (s : StreamOutput) : Prop :=
  (∃ all, Interleaves ((rawLines (written .stdout)).map outputLine)
      ((rawLines (written .stderr)).map outputLine) all ∧ s.output = String.join all) ∧
    String.join (s.notified.map OutputNotification.data) = s.output

/-- What has been taken off a stream. -/
def Taken (written : List UInt8) (texts : List String) (r : LineReader) : Prop :=
  if r.done then texts = ((rawLines written).takeWhile Readable).map outputLine
  else ∃ taken, rawLines written = taken ++ rawLines (r.held ++ r.coming) ∧
    (∀ line ∈ taken, Readable line = true) ∧ texts = taken.map outputLine

/-- **The invariant.** -/
structure StreamInv (written : OutputStream → List UInt8) (s : StreamOutput) : Prop where
  output : String.join (s.notified.map OutputNotification.data) = s.output
  closed : ∀ o, (s.reader o).closed = true → (s.reader o).coming = []
  taken : ∀ o, Taken (written o) (s.texts o) (s.reader o)

section Inv

variable {written : OutputStream → List UInt8} {s t : StreamOutput} {o : OutputStream}

@[simp] theorem StreamOutput.put_reader_self (r : LineReader) : (s.put o r).reader o = r := by
  simp [StreamOutput.put]

theorem StreamOutput.put_reader_of_ne {o' : OutputStream} (r : LineReader) (h : o' ≠ o) :
    (s.put o r).reader o' = s.reader o' := by
  simp [StreamOutput.put, h]

theorem streamInit_start (written : OutputStream → List UInt8) :
    StreamInit written (.start written) := rfl

theorem streamInv_start : StreamInv written (StreamOutput.start written) := by
  refine ⟨rfl, fun o h => ?_, fun o => ?_⟩
  · cases h
  · exact ⟨[], rfl, fun _ h => absurd h List.not_mem_nil, rfl⟩

/-- A step that records nothing and leaves what is still to be taken off. -/
theorem StreamInv.quiet (h : StreamInv written s) {r : LineReader} (hdone : r.done = (s.reader o).done)
    (hrest : r.held ++ r.coming = (s.reader o).held ++ (s.reader o).coming)
    (hclosed : r.closed = true → r.coming = []) : StreamInv written (s.put o r) := by
  refine ⟨h.output, fun o' => ?_, fun o' => ?_⟩
  · by_cases ho : o' = o
    · subst ho
      rwa [s.put_reader_self]
    · rw [s.put_reader_of_ne r ho]
      exact h.closed o'
  · by_cases ho : o' = o
    · subst ho
      have htaken := h.taken o'
      rw [s.put_reader_self, Taken, hdone, hrest]
      exact htaken
    · rw [s.put_reader_of_ne r ho]
      exact h.taken o'

/-! A turn. -/

/-- What a reader takes off is the first line of what is still to come. -/
theorem LineReader.rawLines_ready {r : LineReader} (hready : r.Ready)
    (hclosed : r.closed = true → r.coming = []) (hne : r.held ≠ []) :
    rawLines (r.held ++ r.coming) = firstLine r.held :: rawLines (afterLine r.held ++ r.coming) := by
  by_cases hmem : 10 ∈ r.held
  · exact rawLines_of_mem hmem
  · have hend := hclosed (hready.resolve_left hmem)
    obtain ⟨hlast, hnone⟩ := rawLines_of_last hmem hne
    rw [hend, List.append_nil, hnone, hlast]
    rfl

/-- A reader that has nothing is at the end. -/
theorem LineReader.rawLines_end {r : LineReader} (hready : r.Ready)
    (hclosed : r.closed = true → r.coming = []) (hnone : r.held = []) :
    rawLines (r.held ++ r.coming) = [] := by
  have hend : r.closed = true := hready.resolve_left (by rw [hnone]; exact List.not_mem_nil)
  rw [hnone, hclosed hend]
  rfl

theorem fromUtf8_eq_some {bytes : List UInt8} {text : String} (h : fromUtf8 bytes = some text) :
    text = fromUtf8Lossy bytes := by
  unfold fromUtf8 at h
  split at h
  · exact (Option.some.inj h).symm
  · cases h

theorem takeWhile_taken {taken rest : List (List UInt8)}
    (htaken : ∀ line ∈ taken, Readable line = true) :
    (taken ++ rest).takeWhile Readable = taken ++ rest.takeWhile Readable :=
  List.takeWhile_append_of_pos htaken

/-- A stream that ends, at its end or at a broken line. -/
theorem StreamInv.ends (h : StreamInv written s) (hdone : (s.reader o).done = false)
    (hrest : (rawLines ((s.reader o).held ++ (s.reader o).coming)).takeWhile Readable = []) :
    StreamInv written (s.put o { s.reader o with done := true }) := by
  refine ⟨h.output, fun o' => ?_, fun o' => ?_⟩
  · by_cases ho : o' = o
    · subst ho
      rw [s.put_reader_self]
      exact h.closed o'
    · rw [s.put_reader_of_ne _ ho]
      exact h.closed o'
  · by_cases ho : o' = o
    · subst ho
      have htaken := h.taken o'
      rw [Taken, if_neg (by rw [hdone]; exact Bool.false_ne_true)] at htaken
      obtain ⟨taken, hlines, hreadable, htexts⟩ := htaken
      rw [s.put_reader_self, Taken, if_pos rfl, hlines, takeWhile_taken hreadable, hrest,
        List.append_nil]
      exact htexts
    · rw [s.put_reader_of_ne _ ho]
      exact h.taken o'

theorem StreamOutput.texts_notify (s : StreamOutput) (o o' : OutputStream) (data output : String)
    (delivered : Bool) (reader : OutputStream → LineReader) :
    (StreamOutput.mk reader output (s.notified ++ [⟨o, data, delivered⟩])).texts o'
      = if o' = o then s.texts o' ++ [data] else s.texts o' := by
  rw [StreamOutput.texts, List.filter_append, List.map_append]
  by_cases ho : o' = o
  · simp [ho, StreamOutput.texts]
  · simp [ho, Ne.symm ho, StreamOutput.texts]

/-- A line is taken off and recorded. -/
theorem StreamInv.line (h : StreamInv written s) (hdone : (s.reader o).done = false)
    (hready : (s.reader o).Ready) (hne : (s.reader o).held ≠ []) {line : String}
    (hline : fromUtf8 (firstLine (s.reader o).held) = some line) (delivered : Bool) :
    StreamInv written
      { s.put o { s.reader o with held := afterLine (s.reader o).held } with
        output := s.output ++ (stripEol line ++ "\n")
        notified := s.notified ++ [⟨o, stripEol line ++ "\n", delivered⟩] } := by
  have hsplit := LineReader.rawLines_ready hready (h.closed o) hne
  have htext : stripEol line ++ "\n" = outputLine (firstLine (s.reader o).held) := by
    rw [outputLine, lineText, fromUtf8_eq_some hline]
  rw [htext]
  refine ⟨?_, fun o' => ?_, fun o' => ?_⟩
  · rw [List.map_append, String.join_append, h.output]
    simp
  · by_cases ho : o' = o
    · subst ho
      show ((s.put o' _).reader o').closed = true → ((s.put o' _).reader o').coming = []
      rw [s.put_reader_self]
      exact h.closed o'
    · show ((s.put o _).reader o').closed = true → ((s.put o _).reader o').coming = []
      rw [s.put_reader_of_ne _ ho]
      exact h.closed o'
  · have hnew := s.texts_notify o o' (outputLine (firstLine (s.reader o).held))
    rw [hnew]
    by_cases ho : o' = o
    · subst ho
      have htaken := h.taken o'
      rw [Taken, if_neg (by rw [hdone]; exact Bool.false_ne_true)] at htaken
      obtain ⟨taken, hlines, hreadable, htexts⟩ := htaken
      show Taken (written o') _ ((s.put o' _).reader o')
      rw [s.put_reader_self, if_pos rfl, Taken, if_neg (by rw [hdone]; exact Bool.false_ne_true)]
      refine ⟨taken ++ [firstLine (s.reader o').held], ?_, ?_, ?_⟩
      · rw [hlines, hsplit, List.append_assoc]
        rfl
      · intro line' hmem
        rcases List.mem_append.mp hmem with hmem | hmem
        · exact hreadable line' hmem
        · rw [List.mem_singleton.mp hmem, Readable, hline]
          rfl
      · rw [htexts, List.map_append]
        rfl
    · show Taken (written o') _ ((s.put o _).reader o')
      rw [s.put_reader_of_ne _ ho, if_neg ho]
      exact h.taken o'

theorem StreamInv.turn (h : StreamInv written s) (hdone : (s.reader o).done = false)
    (hready : (s.reader o).Ready) (delivered : Bool) : StreamInv written (s.turn o delivered) := by
  unfold StreamOutput.turn
  dsimp only
  by_cases hne : (s.reader o).held = []
  · have hnext : nextLine (s.reader o).held = .ok none := if_pos hne
    rw [hnext]
    refine h.ends hdone ?_
    rw [LineReader.rawLines_end hready (h.closed o) hne]
    rfl
  · cases hline : fromUtf8 (firstLine (s.reader o).held) with
    | none =>
      have hnext : nextLine (s.reader o).held = .error () := by
        rw [nextLine, if_neg hne, hline]
      rw [hnext]
      refine h.ends hdone ?_
      rw [LineReader.rawLines_ready hready (h.closed o) hne, List.takeWhile_cons_of_neg]
      rw [Readable, hline]
      exact Bool.false_ne_true
    | some line =>
      have hnext : nextLine (s.reader o).held = .ok (some (stripEol line)) := by
        rw [nextLine, if_neg hne, hline]
      rw [hnext]
      exact h.line hdone hready hne hline delivered

theorem StreamInv.step {e : StreamEvent} (h : StreamInv written s) (hs : StreamStep s e t) :
    StreamInv written t := by
  obtain ⟨hok, rfl⟩ := hs
  cases e with
  | arrive o n =>
    refine h.quiet rfl ?_ fun hclosed => ?_
    · rw [List.append_assoc, List.take_append_drop]
    · dsimp only at hclosed ⊢
      rw [h.closed o hclosed, List.drop_nil]
  | close o => exact h.quiet rfl rfl fun _ => hok
  | turn o delivered => exact h.turn hok.1 hok.2 delivered

theorem StreamRun.inv {hist : List (StreamOutput × StreamEvent)} (h : StreamRun written hist s) :
    StreamInv written s :=
  h.invariant (fun _ h0 => (show _ = _ from h0) ▸ streamInv_start) fun _ _ _ hi hs => hi.step hs

/-! ## 3. When the loop has ended -/

/-- **Of a stream that has ended** the lines before its first broken one are recorded. -/
theorem StreamInv.texts_of_done (h : StreamInv written s) (hdone : (s.reader o).done = true) :
    s.texts o = ((rawLines (written o)).takeWhile Readable).map outputLine := by
  have htaken := h.taken o
  rwa [Taken, if_pos hdone] at htaken

theorem count_outputLine {bytes line : List UInt8} (h : line ∈ rawLines bytes) :
    (outputLine line).toList.count '\n' = 1 := by
  rw [outputLine, String.toList_append, List.count_append,
    List.count_eq_zero.mpr (newline_notMem_lineText h)]
  rfl

theorem count_recorded {bytes : List UInt8} {text : String}
    (h : text ∈ (rawLines bytes).map outputLine) : text.toList.count '\n' = 1 := by
  obtain ⟨line, hline, rfl⟩ := List.mem_map.mp h
  exact count_outputLine hline

theorem StreamInv.recorded_iff (hinv : StreamInv written s) (hret : s.Returned) :
    Faithful written s ↔ ∀ o, ∀ line ∈ rawLines (written o), Readable line = true := by
  have htexts := fun o => hinv.texts_of_done (hret o)
  have hmixed : Interleaves (s.texts .stdout) (s.texts .stderr)
      (s.notified.map OutputNotification.data) := by
    refine interleaves_filter _ _ _ (fun n => ?_) s.notified
    cases n.stream <;> rfl
  have hfront : ∀ o, s.texts o <+: (rawLines (written o)).map outputLine := fun o => by
    rw [htexts o]
    exact (List.takeWhile_prefix _).map outputLine
  constructor
  · intro h
    obtain ⟨⟨all, hall, houtput⟩, -⟩ := h
    -- the output has one newline for each line that should be in it, and for each that is
    have hexpected : (String.join all).toList.count '\n' = all.length :=
      count_join_lines fun text ht => (hall.mem ht).elim count_recorded count_recorded
    have hrecorded : (String.join (s.notified.map OutputNotification.data)).toList.count '\n'
        = (s.notified.map OutputNotification.data).length :=
      count_join_lines fun text ht => (hmixed.mem ht).elim
        (fun hm => count_recorded ((hfront _).subset hm))
        (fun hm => count_recorded ((hfront _).subset hm))
    rw [hinv.output, houtput, hexpected, hall.length, hmixed.length] at hrecorded
    have hle := fun o => (hfront o).length_le
    have hout := hle .stdout
    have herr := hle .stderr
    have hwhole : ∀ o, s.texts o = (rawLines (written o)).map outputLine := fun o => by
      refine (hfront o).eq_of_length_le ?_
      cases o
      · omega
      · omega
    intro o
    have hlen := congrArg List.length (hwhole o)
    rw [htexts o, List.length_map, List.length_map] at hlen
    exact List.takeWhile_eq_self_iff.mp
      ((List.takeWhile_prefix Readable).eq_of_length hlen)
  · intro hreadable
    refine ⟨⟨s.notified.map OutputNotification.data, ?_, hinv.output.symm⟩, hinv.output⟩
    have hwhole : ∀ o, s.texts o = (rawLines (written o)).map outputLine := fun o => by
      rw [htexts o, List.takeWhile_eq_self_iff.mpr (hreadable o)]
    rw [← hwhole, ← hwhole]
    exact hmixed

/-- **When the loop returns, all lines are recorded exactly when none of them is broken.** -/
theorem faithful_iff {hist : List (StreamOutput × StreamEvent)} (h : StreamRun written hist s)
    (hret : s.Returned) :
    Faithful written s ↔ ∀ o, ∀ line ∈ rawLines (written o), Readable line = true :=
  h.inv.recorded_iff hret

end Inv

/-! ## 4. Two runs -/

/-- A child that writes to one stream only. -/
def onlyStdout (bytes : List UInt8) : OutputStream → List UInt8
  | .stdout => bytes
  | .stderr => []

/-- `ok`, in two chunks and without a newline; the connection is lost. Newest first. -/
def unbrokenRun : List StreamEvent :=
  [.turn .stderr false, .turn .stdout false, .turn .stdout false, .close .stderr, .close .stdout,
    .arrive .stdout 1, .arrive .stdout 1]

theorem unbroken_run :
    StreamRun (onlyStdout [111, 107])
      (replay StreamOutput.next (.start (onlyStdout [111, 107])) unbrokenRun).1
      (replay StreamOutput.next (.start (onlyStdout [111, 107])) unbrokenRun).2 := by
  have hok : Permitted StreamOutput.permits StreamOutput.next
      (.start (onlyStdout [111, 107])) unbrokenRun := by decide
  exact Run.of_replay (streamInit_start _) hok

theorem faithful_iff_unbroken :
    Faithful (onlyStdout [111, 107])
      (replay StreamOutput.next (.start (onlyStdout [111, 107])) unbrokenRun).2 := by
  have hret : (replay StreamOutput.next (.start (onlyStdout [111, 107])) unbrokenRun).2.Returned :=
    fun o => by cases o <;> decide
  refine (faithful_iff unbroken_run hret).mpr fun o => ?_
  cases o <;> decide

/-- A broken byte in the first of two lines. -/
def brokenRun : List StreamEvent :=
  [.turn .stderr true, .turn .stdout true, .close .stderr, .close .stdout, .arrive .stdout 4]

theorem broken_run :
    StreamRun (onlyStdout [255, 10, 97, 10])
      (replay StreamOutput.next (.start (onlyStdout [255, 10, 97, 10])) brokenRun).1
      (replay StreamOutput.next (.start (onlyStdout [255, 10, 97, 10])) brokenRun).2 := by
  have hok : Permitted StreamOutput.permits StreamOutput.next
      (.start (onlyStdout [255, 10, 97, 10])) brokenRun := by decide
  exact Run.of_replay (streamInit_start _) hok

/-- **The rest of a stream is not recorded behind a line that is no UTF-8.** -/
theorem broken_line_ends_stream :
    ¬ (∀ (written : OutputStream → List UInt8) (hist : List (StreamOutput × StreamEvent))
        (s : StreamOutput), StreamRun written hist s → s.Returned → Faithful written s) ∧
      (replay StreamOutput.next (.start (onlyStdout [255, 10, 97, 10])) brokenRun).2.output = "" ∧
      (rawLines [255, 10, 97, 10]).map outputLine = ["\uFFFD\n", "a\n"] := by
  refine ⟨fun hall => ?_, by decide, by decide⟩
  have hret : (replay StreamOutput.next (.start (onlyStdout [255, 10, 97, 10]))
      brokenRun).2.Returned := fun o => by cases o <;> decide
  have hreadable := (broken_run.inv.recorded_iff hret).mp (hall _ _ _ broken_run hret) .stdout
    [255, 10] (by decide)
  exact absurd hreadable (by decide)

end Relayfs
