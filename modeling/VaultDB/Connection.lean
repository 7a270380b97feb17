import VaultDB.Library.Lines
import VaultDB.Library.Text

/-! # Connections

`src/server/connection.cpp`: a client's descriptor and the bytes received from
it that no newline has ended yet. `reassembly` says what a connection makes of
a stream, however the stream was cut into chunks.
-/

namespace VaultDB

open Text

structure Connection where
  fd : Int
  buffer : Bytes
deriving Repr, DecidableEq

namespace Connection

def new (fd : Int) : Connection := ⟨fd, []⟩

def appendData (conn : Connection) (data : Bytes) : Connection :=
  { conn with buffer := conn.buffer ++ data }

/-- The loop of `extract_commands`, with the commands so far; `none` while it
is still running after as many turns as there is fuel. -/
def extractLoop : Nat → Bytes → List Bytes → Option (List Bytes × Bytes)
  | 0, _, _ => none
  | fuel + 1, buffer, commands =>
    match find 10 buffer 0 with
    | none => some (commands, buffer)
    | some pos =>
      let line := buffer.take pos
      let buffer := buffer.drop (pos + 1)
      if line.isEmpty ∨ (line.length = 1 ∧ line.head? = some 13) then
        extractLoop fuel buffer commands
      else
        let line := if ¬ line.isEmpty ∧ line.getLast? = some 13 then line.dropLast else line
        if ¬ line.isEmpty then extractLoop fuel buffer (commands ++ [line])
        else extractLoop fuel buffer commands

def extractCommands (conn : Connection) : Option (List Bytes × Connection) :=
  (extractLoop (conn.buffer.length + 1) conn.buffer []).map fun (commands, buffer) =>
    (commands, { conn with buffer := buffer })

/-- `append_data` and `extract_commands`, as `handle_client` calls them for one chunk. -/
def receive (conn : Connection) (chunk : Bytes) : Option (List Bytes × Connection) :=
  (conn.appendData chunk).extractCommands

/-- One chunk after the other, with the commands each of them completes. -/
def receiveAll : Connection → List Bytes → Option (List (List Bytes) × Connection)
  | conn, [] => some ([], conn)
  | conn, chunk :: chunks => do
    let (commands, conn) ← conn.receive chunk
    let (later, conn) ← receiveAll conn chunks
    return (commands :: later, conn)

/-! ## What a stream says -/

/-- A segment without one trailing carriage return. -/
def chomp (segment : Bytes) : Bytes :=
  if segment.getLast? = some 13 then segment.dropLast else segment

/-- The command lines of a stream: its segments that end in a newline, without
a carriage return and the empty ones. -/
def commandLines (s : Bytes) : List Bytes :=
  ((Lines.segments 10 s).map chomp).filter fun line => line ≠ []

/-- The part of a stream after its last newline. -/
def unfinished (s : Bytes) : Bytes := Lines.rest 10 s

theorem commandLines_of_notMem {s : Bytes} (h : 10 ∉ s) : commandLines s = [] := by
  unfold commandLines
  rw [Lines.segments_of_notMem h]
  rfl

theorem commandLines_line {l : Bytes} (h : 10 ∉ l) (s : Bytes) :
    commandLines (l ++ 10 :: s) =
      if chomp l = [] then commandLines s else chomp l :: commandLines s := by
  unfold commandLines
  rw [Lines.segments_line h, List.map_cons, List.filter_cons]
  by_cases hempty : chomp l = []
  · simp [hempty]
  · simp [hempty]

/-- More of a stream adds the lines that what is unfinished and what comes make. -/
theorem commandLines_append (s t : Bytes) :
    commandLines (s ++ t) = commandLines s ++ commandLines (unfinished s ++ t) := by
  unfold commandLines unfinished
  rw [Lines.segments_append, List.map_append, List.filter_append]

theorem unfinished_append (s t : Bytes) : unfinished (s ++ t) = unfinished (unfinished s ++ t) :=
  Lines.rest_append s t

/-- The two tests of the loop skip the lines of which nothing is left. -/
theorem skipped_iff (line : Bytes) :
    (line.isEmpty ∨ (line.length = 1 ∧ line.head? = some 13)) ↔ chomp line = [] := by
  unfold chomp
  cases line with
  | nil => simp
  | cons b line =>
      cases line with
      | nil =>
          by_cases hb : b = 13
          · simp [hb]
          · simp [hb]
      | cons b' line =>
          -- of two bytes at least one stays
          split_ifs
          · simp
          · simp

/-- What the loop takes off a line that is not skipped. -/
theorem chomp_of_ne_nil {line : Bytes} (h : chomp line ≠ []) :
    (if ¬ line.isEmpty ∧ line.getLast? = some 13 then line.dropLast else line) = chomp line := by
  have hne : ¬ line.isEmpty := by
    intro hnil
    rw [List.isEmpty_iff.mp hnil] at h
    exact h rfl
  unfold chomp
  by_cases hcr : line.getLast? = some 13
  · rw [if_pos ⟨hne, hcr⟩, if_pos hcr]
  · rw [if_neg fun h => hcr h.2, if_neg hcr]

theorem extractLoop_eq {fuel : Nat} {buffer : Bytes} (hfuel : buffer.length < fuel)
    (commands : List Bytes) :
    extractLoop fuel buffer commands =
      some (commands ++ commandLines buffer, unfinished buffer) := by
  induction fuel generalizing buffer commands with
  | zero => omega
  | succ fuel ih =>
      unfold extractLoop
      cases hfind : find 10 buffer 0 with
      | none =>
          have hnone := find_zero_eq_none.mp hfind
          unfold unfinished
          rw [commandLines_of_notMem hnone, Lines.rest_of_notMem hnone, List.append_nil]
      | some pos =>
          rcases find_zero_eq_some hfind with ⟨hsplit, hline⟩
          have hlines := commandLines_line hline (buffer.drop (pos + 1))
          have hunfinished : unfinished (buffer.take pos ++ 10 :: buffer.drop (pos + 1)) =
              unfinished (buffer.drop (pos + 1)) := Lines.rest_line _ _
          rw [← hsplit] at hlines hunfinished
          have hlen : (buffer.drop (pos + 1)).length < fuel := by
            have hpos := congrArg List.length hsplit
            simp only [List.length_append, List.length_cons] at hpos
            omega
          simp only [skipped_iff]
          rw [hlines, hunfinished]
          by_cases hempty : chomp (buffer.take pos) = []
          · rw [if_pos hempty, if_pos hempty, ih hlen]
          · -- a line that is kept is the segment without its carriage return
            have hkept : ¬ (chomp (buffer.take pos)).isEmpty := by
              rw [List.isEmpty_iff]
              exact hempty
            simp only [chomp_of_ne_nil hempty]
            rw [if_neg hempty, if_neg hempty, if_pos hkept, ih hlen, List.append_assoc,
              List.singleton_append]

theorem extractCommands_eq (conn : Connection) :
    conn.extractCommands =
      some (commandLines conn.buffer, { conn with buffer := unfinished conn.buffer }) := by
  unfold extractCommands
  rw [extractLoop_eq (Nat.lt_succ_self _), List.nil_append]
  rfl

/-- A connection that holds what is unfinished of `s` takes the lines that `s`
and the chunk have more than `s`. -/
theorem receive_eq {conn : Connection} {s : Bytes} (h : conn.buffer = unfinished s)
    (chunk : Bytes) :
    ∃ commands, conn.receive chunk =
        some (commands, { conn with buffer := unfinished (s ++ chunk) }) ∧
      commandLines (s ++ chunk) = commandLines s ++ commands := by
  refine ⟨commandLines (unfinished s ++ chunk), ?_, commandLines_append s chunk⟩
  unfold receive appendData
  rw [extractCommands_eq]
  simp only [h]
  rw [← unfinished_append]

/-- Chunks received after `s`. -/
theorem receiveAll_eq {conn : Connection} {s : Bytes} (h : conn.buffer = unfinished s)
    (chunks : List Bytes) :
    ∃ taken, conn.receiveAll chunks =
        some (taken, { conn with buffer := unfinished (s ++ chunks.flatten) }) ∧
      taken.length = chunks.length ∧
      commandLines (s ++ chunks.flatten) = commandLines s ++ taken.flatten := by
  induction chunks generalizing conn s with
  | nil =>
      refine ⟨[], ?_, rfl, ?_⟩
      · rw [List.flatten_nil, List.append_nil, ← h]
        rfl
      · rw [List.flatten_nil, List.flatten_nil, List.append_nil, List.append_nil]
  | cons chunk chunks ih =>
      rcases receive_eq h chunk with ⟨commands, hreceive, hlines⟩
      -- the next chunk finds what is unfinished of all there was before it
      have hafter : ({ conn with buffer := unfinished (s ++ chunk) } : Connection).buffer =
          unfinished (s ++ chunk) := rfl
      rcases ih hafter with ⟨later, hlater, hlength, hrest⟩
      rw [List.flatten_cons, ← List.append_assoc]
      refine ⟨commands :: later, ?_, ?_, ?_⟩
      · simp only [receiveAll, hreceive, hlater, bind, Option.bind, pure]
      · rw [List.length_cons, List.length_cons, hlength]
      · rw [hrest, hlines, List.flatten_cons, List.append_assoc]

/-- However a stream is cut into chunks, the same commands come out of it and
the same part stays in the buffer; and the loop that takes them out ends on
every buffer. -/
theorem reassembly (fd : Int) (chunks : List Bytes) :
    (∃ taken, (new fd).receiveAll chunks = some (taken, ⟨fd, unfinished chunks.flatten⟩) ∧
      taken.length = chunks.length ∧ taken.flatten = commandLines chunks.flatten) ∧
    ∀ buffer commands fuel, buffer.length < fuel → (extractLoop fuel buffer commands).isSome := by
  refine ⟨?_, ?_⟩
  · have hnew : (new fd).buffer = unfinished [] := rfl
    rcases receiveAll_eq hnew chunks with ⟨taken, hreceive, hlength, hlines⟩
    exact ⟨taken, hreceive, hlength, hlines.symm⟩
  · intro buffer commands fuel hfuel
    rw [extractLoop_eq hfuel]
    rfl

/-- A cut between a carriage return and its newline, empty lines around it. -/
example : (new 4).receiveAll [ascii "SET a 1\r", ascii "\n\r\n\nGET a\nPI"] =
    some ([[], [ascii "SET a 1", ascii "GET a"]], ⟨4, ascii "PI"⟩) := by decide

end Connection

end VaultDB
