import SocketExchange.Client.Terminal
import SocketExchange.Library.Segments
import SocketExchange.Service.Obedience

/-!
# What a client sends

From start to end a client sends its start-up lines and then the lines typed, up to
and including the first QUIT, or all of them and a QUIT of its own when the input ends.
How the input is cut into reads, how the sends go and when the server answers makes
no difference.
-/

namespace SocketExchange

open Runs Segments Server

/-! ## What it is to send -/

/-- The send goes on: some bytes are accepted, or the call was interrupted. -/
def SendResult.Proceeds : SendResult → Prop
  | .sent _ => True
  | .eintr => True
  | _ => False

instance : ∀ r : SendResult, Decidable r.Proceeds
  | .sent _ => .isTrue trivial
  | .eintr => .isTrue trivial
  | .zero => .isFalse id
  | .again => .isFalse id
  | .failed => .isFalse id

/-- Interrupted or not, a read that does not fail. -/
def ReadResult.Works : ReadResult → Prop
  | .failed => False
  | _ => True

instance : ∀ r : ReadResult, Decidable r.Works
  | .failed => .isFalse id
  | .data _ => .isTrue trivial
  | .eintr => .isTrue trivial
  | .again => .isTrue trivial

/-- The bytes that a read brings. -/
def ReadResult.bytes : ReadResult → Bytes
  | .data chunk => chunk.bytes
  | _ => []

/-- Everything typed. -/
def typed (stdin : List ReadResult) : Bytes := stdin.flatMap ReadResult.bytes

/-- The lines of a session: those typed, up to and including the first QUIT, or all of them and a
QUIT at the end of the input. -/
def sessionLines (input : Bytes) : List Bytes :=
  if ∃ line ∈ framedLines input, commandWord line = text "QUIT" then untilQuit (framedLines input)
  else framedLines input ++ [text "QUIT"]

/-- Every send goes on until all bytes are accepted. -/
theorem sendAll_proceeds {sends : List SendResult} (h : ∀ r ∈ sends, r.Proceeds) (data : Bytes) :
    (sendAll sends data).accepted = data ∧ (sendAll sends data).returned = some data.length ∧
      ∀ r ∈ (sendAll sends data).sends, r.Proceeds := by
  induction sends generalizing data with
  | nil => cases data <;> exact ⟨rfl, rfl, by simp [sendAll]⟩
  | cons r sends ih =>
    obtain ⟨hr, hsends⟩ := List.forall_mem_cons.mp h
    cases data with
    | nil => exact ⟨rfl, rfl, h⟩
    | cons b data =>
      cases r with
      | sent n =>
        obtain ⟨haccepted, hreturned, hleft⟩ := ih hsends ((b :: data).drop (n + 1))
        refine ⟨?_, ?_, hleft⟩
        · simp only [sendAll, haccepted, List.take_append_drop]
        · simp only [sendAll, hreturned, Option.map_some, ← List.length_append,
            List.take_append_drop]
      | eintr => exact ih hsends (b :: data)
      | zero => exact hr.elim
      | again => exact hr.elim
      | failed => exact hr.elim

/-! ## The lines of a session -/

/-- The end of the input counts as a QUIT. -/
theorem sessionLines_eq (input : Bytes) :
    sessionLines input = untilQuit (framedLines input ++ [text "QUIT"]) := by
  have hquit : untilQuit [text "QUIT"] = [text "QUIT"] := by decide
  unfold sessionLines
  split
  · rename_i h
    rw [untilQuit_append_of_quit h]
  · rename_i h
    push Not at h
    rw [untilQuit_append_of_not h, hquit]

/-- A complete QUIT settles the session. -/
theorem sessionLines_of_quit {b : LineBuffer}
    (h : ∃ line ∈ b.lines.1, commandWord line = text "QUIT") (later : Bytes) :
    sessionLines (b.buf_ ++ later) = untilQuit b.lines.1 := by
  rw [sessionLines_eq, framedLines_append, List.append_assoc, untilQuit_append_of_quit h]

/-- Complete lines without a QUIT come first, whatever is typed later. -/
theorem sessionLines_of_not {b : LineBuffer}
    (h : ∀ line ∈ b.lines.1, commandWord line ≠ text "QUIT") (later : Bytes) :
    sessionLines (b.buf_ ++ later) =
      untilQuit b.lines.1 ++ sessionLines (b.lines.2.buf_ ++ later) := by
  rw [sessionLines_eq, framedLines_append, List.append_assoc, untilQuit_append_of_not h,
    untilQuit_of_not h, sessionLines_eq]

namespace Client

variable {c : Client} {all : Bytes}

private theorem head?_eq_iff (line : Bytes) :
    (tokenize line).head? = some (text "QUIT") ↔ commandWord line = text "QUIT" := by
  have hne : ¬ [] = text "QUIT" := by decide
  unfold commandWord
  cases tokenize line <;> simp [hne]

/-! ## The two phases of a client -/

/-- The client is in its session: what it has sent and what is still to be sent, of the bytes
buffered and of those not yet typed, make up the whole. -/
structure Typing (c : Client) (all : Bytes) : Prop where
  running : c.running = true
  stdinOpen : c.stdinOpen = true
  sentQuit : c.sentQuit = false
  shut : c.shut = false
  drained : 10 ∉ c.stdinLines.buf_
  proceeds : ∀ r ∈ c.sends, r.Proceeds
  works : ∀ r ∈ c.stdin, r.Works
  whole : c.wire ++ terminated 10 (sessionLines (c.stdinLines.buf_ ++ typed c.stdin)) = all

/-- The client has sent everything and shut down its sending side. -/
structure Ended (c : Client) (all : Bytes) : Prop where
  stdinOpen : c.stdinOpen = false
  shut : c.shut = true
  whole : c.wire = all

/-- A line is sent whole. -/
theorem sendLine_proceeds (h : ∀ r ∈ c.sends, r.Proceeds) (line : Bytes) :
    ∃ sends, (∀ r ∈ sends, r.Proceeds) ∧
      c.sendLine line = ({ c with wire := c.wire ++ line, sends := sends }, true) := by
  obtain ⟨haccepted, hreturned, hleft⟩ := sendAll_proceeds h line
  refine ⟨(sendAll c.sends line).sends, hleft, ?_⟩
  rw [sendLine, haccepted, hreturned, Option.isSome_some]

/-- A round of the loop sends a line, and goes on unless it is a QUIT. -/
theorem sendTyped_succ {c' : Client} {line : Bytes} {rest : LineBuffer} (fuel : Nat)
    (hline : c.stdinLines.nextLine = some (line, rest))
    (hsent : { c with stdinLines := rest }.sendLine (line ++ [10]) = (c', true)) :
    sendTyped (fuel + 1) c =
      if commandWord line = text "QUIT" then { c' with sentQuit := true }
      else sendTyped fuel c' := by
  simp only [sendTyped, hline, hsent, head?_eq_iff]

/-- The loop over the lines sends all of them up to the first QUIT, and remembers whether there
was one. -/
theorem sendTyped_proceeds {fuel : Nat} (h : ∀ r ∈ c.sends, r.Proceeds)
    (hquit : c.sentQuit = false) (hfuel : c.stdinLines.buf_.length ≤ fuel) :
    ∃ left sends, (∀ r ∈ sends, r.Proceeds) ∧
      sendTyped fuel c = { c with
        stdinLines := left
        sends := sends
        wire := c.wire ++ terminated 10 (untilQuit c.stdinLines.lines.1)
        sentQuit := decide (∃ line ∈ c.stdinLines.lines.1, commandWord line = text "QUIT") } ∧
      ((∀ line ∈ c.stdinLines.lines.1, commandWord line ≠ text "QUIT") →
        left = c.stdinLines.lines.2) := by
  obtain ⟨b, hb⟩ : ∃ b, c.stdinLines = b := ⟨_, rfl⟩
  rw [hb] at hfuel ⊢
  induction b using LineBuffer.lines_induction generalizing c fuel with
  | hnone b hno =>
    have hnone : sendTyped fuel c = c := by
      cases fuel with
      | zero => rfl
      | succ fuel => simp only [sendTyped, hb, LineBuffer.nextLine_eq_none.mpr hno]
    have hnoQuit : decide (∃ line ∈ ([] : List Bytes), commandWord line = text "QUIT") =
        c.sentQuit := by simp [hquit]
    refine ⟨b, c.sends, h, ?_, by simp [LineBuffer.lines_none hno]⟩
    rw [hnone, LineBuffer.lines_none hno, hnoQuit, untilQuit, terminated_nil, List.append_nil, ← hb]
  | hcons s t hs ih =>
    rw [List.length_append, List.length_cons] at hfuel
    obtain ⟨fuel, rfl⟩ : ∃ n, fuel = n + 1 := ⟨fuel - 1, by omega⟩
    obtain ⟨sends, hsends, hsent⟩ :=
      sendLine_proceeds (c := { c with stdinLines := ⟨t⟩ }) h (stripCr s ++ [10])
    have hround := sendTyped_succ fuel (hb ▸ LineBuffer.nextLine_append hs t) hsent
    rw [LineBuffer.lines_cons hs]
    by_cases hword : commandWord (stripCr s) = text "QUIT"
    · rw [if_pos hword] at hround
      refine ⟨⟨t⟩, sends, hsends, ?_, fun hno => absurd hword (hno _ List.mem_cons_self)⟩
      rw [hround]
      simp [untilQuit, hword]
    · rw [if_neg hword] at hround
      have hshorter : t.length ≤ fuel := by omega
      obtain ⟨left, sends', hsends', htyped, hleft⟩ := ih
        (c := { c with
          stdinLines := ⟨t⟩, wire := c.wire ++ (stripCr s ++ [10]), sends := sends })
        hsends hquit hshorter rfl
      refine ⟨left, sends', hsends', ?_, fun hno => hleft (List.forall_mem_cons.mp hno).2⟩
      rw [hround, htyped]
      simp [untilQuit, hword]

/-! ## One turn -/

/-- At the end of the input the client sends its own QUIT. -/
theorem Typing.onEnd (h : Typing c all) (hstdin : c.stdin = []) : Ended c.onStdin all := by
  obtain ⟨sends, hsends, hsent⟩ := sendLine_proceeds h.proceeds (text "QUIT" ++ [10])
  have hend : sessionLines c.stdinLines.buf_ = [text "QUIT"] := by
    simp [sessionLines, framedLines_of_not_mem h.drained]
  have hwhole := h.whole
  rw [hstdin, typed, List.flatMap_nil, List.append_nil, hend] at hwhole
  simp only [Client.onStdin, hstdin, hsent, endInput, if_true]
  exact ⟨rfl, rfl, by simpa using hwhole⟩

/-- A read that brings nothing changes nothing. -/
theorem Typing.idle (h : Typing c all) {r : ReadResult} {stdin : List ReadResult}
    (hstdin : c.stdin = r :: stdin) (hr : r.bytes = []) :
    Typing { c with stdin := stdin }.endInput all := by
  obtain ⟨hrunning, hopen, hquit, hshut, hdrained, hproceeds, hworks, hwhole⟩ := h
  have htyped : typed c.stdin = typed stdin := by simp [hstdin, typed, hr]
  rw [hstdin, List.forall_mem_cons] at hworks
  rw [htyped] at hwhole
  simp only [endInput, hquit, Bool.false_eq_true, if_false]
  exact ⟨hrunning, hopen, rfl, hshut, hdrained, hproceeds, hworks.2, hwhole⟩

/-- A read that brings bytes: the lines they complete are sent, and with a QUIT among them the
session ends. -/
theorem Typing.onData (h : Typing c all) {chunk : Chunk} {stdin : List ReadResult}
    (hstdin : c.stdin = .data chunk :: stdin) :
    Ended c.onStdin all ∨ (Typing c.onStdin all ∧ c.onStdin.stdin = stdin) := by
  obtain ⟨hrunning, hopen, hquit, hshut, hdrained, hproceeds, hworks, hwhole⟩ := h
  let b := c.stdinLines.feed chunk.bytes
  have hfed : c.stdinLines.buf_ ++ typed c.stdin = b.buf_ ++ typed stdin := by
    rw [hstdin]
    exact (List.append_assoc ..).symm
  obtain ⟨left, sends, hsends, hsent, hleft⟩ := sendTyped_proceeds
    (c := { c with stdin := stdin, stdinLines := b }) hproceeds hquit le_rfl
  have hresult : c.onStdin = (sendTyped b.buf_.length
      { c with stdin := stdin, stdinLines := b }).endInput := by
    simp only [Client.onStdin, hstdin, b]
  rw [hresult, hsent]
  rw [hfed] at hwhole
  rw [hstdin, List.forall_mem_cons] at hworks
  by_cases hword : ∃ line ∈ b.lines.1, commandWord line = text "QUIT"
  · left
    rw [sessionLines_of_quit hword] at hwhole
    simp only [endInput, hword, decide_true, if_true]
    exact ⟨rfl, rfl, hwhole⟩
  · right
    push Not at hword
    rw [sessionLines_of_not hword, terminated_append, ← List.append_assoc] at hwhole
    have hnoQuit : decide (∃ line ∈ b.lines.1, commandWord line = text "QUIT") = false := by
      simpa using hword
    simp only [endInput, hnoQuit, Bool.false_eq_true, if_false, hleft hword]
    exact ⟨⟨hrunning, hopen, rfl, hshut, b.lines_left, hsends, hworks.2, hwhole⟩, trivial⟩

/-- When standard input is ready, one of its reads is used up, or the session ends. -/
theorem Typing.onStdin (h : Typing c all) :
    Ended c.onStdin all ∨
      (Typing c.onStdin all ∧ c.onStdin.stdin.length + 1 = c.stdin.length) := by
  cases hstdin : c.stdin with
  | nil => exact Or.inl (h.onEnd hstdin)
  | cons r stdin =>
    have hidle : r.bytes = [] → c.onStdin = { c with stdin := stdin }.endInput →
        Typing c.onStdin all ∧ c.onStdin.stdin.length + 1 = (r :: stdin).length := by
      intro hr hresult
      have htyping := h.idle hstdin hr
      rw [hresult]
      refine ⟨htyping, ?_⟩
      simp [endInput, h.sentQuit]
    cases r with
    | data chunk =>
      refine (h.onData hstdin).imp_right fun ⟨htyping, hleft⟩ => ⟨htyping, ?_⟩
      rw [hleft, List.length_cons]
    | eintr => exact Or.inr (hidle rfl (by simp only [Client.onStdin, hstdin]))
    | again => exact Or.inr (hidle rfl (by simp only [Client.onStdin, hstdin]))
    | failed => exact (h.works .failed (by simp [hstdin])).elim

/-- The poll works and brings no end of the connection. -/
def Poll.Calm : Poll → Prop
  | .ready _ server =>
    match server with
    | none => True
    | some (.data _) => True
    | some .eintr => True
    | some .again => True
    | some _ => False
  | .eintr => True
  | .failed => False

instance : ∀ p : Poll, Decidable p.Calm
  | .ready _ none => .isTrue trivial
  | .ready _ (some (.data _)) => .isTrue trivial
  | .ready _ (some .eintr) => .isTrue trivial
  | .ready _ (some .again) => .isTrue trivial
  | .ready _ (some .fin) => .isFalse id
  | .ready _ (some .reset) => .isFalse id
  | .ready _ (some .failed) => .isFalse id
  | .eintr => .isTrue trivial
  | .failed => .isFalse id

/-- The client is not cut off before it has ended its session itself. -/
def Undisturbed (c : Client) (p : Poll) : Prop := (c.turn p).shut = true ∨ p.Calm

instance (c : Client) (p : Poll) : Decidable (c.Undisturbed p) :=
  inferInstanceAs (Decidable (_ ∨ _))

/-- Whether the poll says that standard input is ready. -/
def Poll.reads : Poll → Nat
  | .ready true _ => 1
  | _ => 0

/-- What comes from the server changes nothing of what the client sends. -/
theorem serverPart_eq (c : Client) (server : Option RecvResult) :
    ∃ serverLines printed running, c.serverPart server =
      { c with serverLines := serverLines, printed := printed, running := running } ∧
      (∀ ready, (Poll.ready ready server).Calm → running = c.running) := by
  cases server with
  | none => exact ⟨_, _, _, rfl, fun _ _ => rfl⟩
  | some r =>
    unfold serverPart
    cases hrunning : c.running with
    | false => exact ⟨_, _, _, rfl, fun _ _ => hrunning⟩
    | true =>
      cases r with
      | data chunk => exact ⟨_, _, _, rfl, fun _ _ => hrunning⟩
      | fin => exact ⟨_, _, _, rfl, fun _ h => h.elim⟩
      | eintr => exact ⟨_, _, _, rfl, fun _ _ => hrunning⟩
      | again => exact ⟨_, _, _, rfl, fun _ _ => hrunning⟩
      | reset => exact ⟨_, _, _, rfl, fun _ h => h.elim⟩
      | failed => exact ⟨_, _, _, rfl, fun _ h => h.elim⟩

/-- A client that has ended its input stays so while it serves its socket. -/
theorem Ended.serverPart (h : Ended c all) (server : Option RecvResult) :
    Ended (c.serverPart server) all := by
  obtain ⟨_, _, _, he, -⟩ := c.serverPart_eq server
  rw [he]
  exact ⟨h.stdinOpen, h.shut, h.whole⟩

/-- Serving a calm socket leaves the client in its session. -/
theorem Typing.serverPart (h : Typing c all) {ready : Bool} {server : Option RecvResult}
    (hcalm : (Poll.ready ready server).Calm) :
    Typing (c.serverPart server) all ∧ (c.serverPart server).stdin = c.stdin := by
  obtain ⟨_, _, _, he, hrunning⟩ := c.serverPart_eq server
  rw [he]
  exact ⟨⟨(hrunning ready hcalm).trans h.running, h.stdinOpen, h.sentQuit, h.shut, h.drained,
    h.proceeds, h.works, h.whole⟩, rfl⟩

/-- Once the session has ended, whatever happens, nothing more is sent. -/
theorem Ended.turn (h : Ended c all) (p : Poll) : Ended (c.turn p) all := by
  unfold Client.turn
  split
  · cases p with
    | ready stdin server =>
      have hclosed : c.stdinPart stdin = c := by simp [stdinPart, h.stdinOpen]
      simp only [hclosed]
      exact h.serverPart server
    | eintr => exact h
    | failed => exact ⟨h.stdinOpen, h.shut, h.whole⟩
  · exact h

/-- Each turn ends the session or goes on with it, using up a read if standard input is ready. -/
theorem Typing.turn (h : Typing c all) {p : Poll} (hp : c.Undisturbed p) :
    Ended (c.turn p) all ∨
      (Typing (c.turn p) all ∧ (c.turn p).stdin.length + p.reads = c.stdin.length) := by
  unfold Undisturbed at hp
  cases p with
  | eintr =>
    simp only [Client.turn, h.running, if_true]
    exact Or.inr ⟨h, rfl⟩
  | failed =>
    simp only [Client.turn, h.running, if_true, h.shut, Bool.false_eq_true, false_or] at hp
    exact hp.elim
  | ready stdin server =>
    simp only [Client.turn, h.running, if_true] at hp ⊢
    have hpart : Ended (c.stdinPart stdin) all ∨ (Typing (c.stdinPart stdin) all ∧
        (c.stdinPart stdin).stdin.length + (Poll.ready stdin server).reads = c.stdin.length) := by
      cases stdin with
      | false => exact Or.inr ⟨by simpa [stdinPart] using h, by simp [stdinPart, Poll.reads]⟩
      | true => simpa [stdinPart, h.stdinOpen, Poll.reads] using h.onStdin
    rcases hpart with hended | ⟨htyping, hreads⟩
    · exact Or.inl (hended.serverPart server)
    · have hcalm : (Poll.ready stdin server).Calm := by
        refine hp.resolve_left fun hshut => ?_
        obtain ⟨_, _, _, he, -⟩ := (c.stdinPart stdin).serverPart_eq server
        rw [he] at hshut
        rw [htyping.shut] at hshut
        cases hshut
      obtain ⟨hserver, hstdin⟩ := htyping.serverPart hcalm
      exact Or.inr ⟨hserver, by rw [hstdin, hreads]⟩

/-! ## A whole run -/

/-- A client that has sent everything sends nothing more. -/
theorem Ended.run (h : Ended c all) (polls : List Poll) :
    Ended (Runs.run Client.turn c polls) all :=
  run_invariant (P := fun c => Ended c all) (fun _ p h => h.turn p) h polls

/-- A run of the loop ends the session or is still in it, with a read left for every one that has
not been made. -/
theorem Typing.run (h : Typing c all) {polls : List Poll}
    (hpolls : Admissible Undisturbed Client.turn c polls) :
    Ended (Runs.run Client.turn c polls) all ∨ (Typing (Runs.run Client.turn c polls) all ∧
      (Runs.run Client.turn c polls).stdin.length + (polls.map Poll.reads).sum =
        c.stdin.length) := by
  induction polls generalizing c with
  | nil => exact Or.inr ⟨h, rfl⟩
  | cons p polls ih =>
    obtain ⟨hp, hpolls⟩ := hpolls
    rw [run_cons, List.map_cons, List.sum_cons]
    rcases h.turn hp with hended | ⟨htyping, hreads⟩
    · exact Or.inl (hended.run polls)
    · refine (ih htyping hpolls).imp_right fun ⟨hgoes, hleft⟩ => ⟨hgoes, ?_⟩
      omega

/-! ## From the start -/

/-- The start-up lines are sent whole. -/
theorem greet_proceeds (h : ∀ r ∈ c.sends, r.Proceeds) (lines : List Bytes) :
    ∃ sends, (∀ r ∈ sends, r.Proceeds) ∧
      c.greet lines = { c with wire := c.wire ++ terminated 10 lines, sends := sends } := by
  induction lines generalizing c with
  | nil => exact ⟨c.sends, h, by simp [greet]⟩
  | cons line lines ih =>
    obtain ⟨sends, hsends, hsent⟩ := sendLine_proceeds h (line ++ [10])
    obtain ⟨sends', hsends', hgreet⟩ :=
      ih (c := { c with wire := c.wire ++ (line ++ [10]), sends := sends }) hsends
    refine ⟨sends', hsends', ?_⟩
    simp [greet, hsent, hgreet]

variable (p : Program) (args : List Bytes) {stdin : List ReadResult} {sends : List SendResult}

/-- A client at the start of its loop. -/
theorem start_eq (stdin : List ReadResult) (hsends : ∀ r ∈ sends, r.Proceeds) :
    ∃ sends', (∀ r ∈ sends', r.Proceeds) ∧ start p args stdin sends =
      { stdin := stdin, sends := sends', wire := terminated 10 (p.greeting args) } := by
  obtain ⟨sends', hsends', hgreet⟩ :=
    greet_proceeds (c := { stdin := stdin, sends := sends }) hsends (p.greeting args)
  exact ⟨sends', hsends', by rw [start, hgreet, List.nil_append]⟩

/-- A client that starts has its start-up lines to send, and then what is typed. -/
theorem start_typing (hstdin : ∀ r ∈ stdin, r.Works) (hsends : ∀ r ∈ sends, r.Proceeds) :
    Typing (start p args stdin sends)
      (terminated 10 (p.greeting args ++ sessionLines (typed stdin))) := by
  obtain ⟨sends', hsends', hstart⟩ := start_eq p args stdin hsends
  rw [hstart]
  exact ⟨rfl, rfl, rfl, rfl, List.not_mem_nil, hsends', hstdin, (terminated_append ..).symm⟩

end Client

end SocketExchange
