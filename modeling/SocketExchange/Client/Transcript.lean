import SocketExchange.Client.Agreement

/-!
# What a client has done at any time

Whatever the system calls of a client return, and in whatever order its descriptors become
ready: the bytes it has sent begin its lines, a send that fails is its last, and it has printed
the complete lines of the bytes it has received.
-/

namespace SocketExchange

open Runs Segments Server

/-- The send does not return 0, which the source takes for the peer's close and then goes on. -/
def SendResult.Nonzero : SendResult → Prop
  | .zero => False
  | _ => True

instance : ∀ r : SendResult, Decidable r.Nonzero
  | .zero => .isFalse id
  | .sent _ => .isTrue trivial
  | .eintr => .isTrue trivial
  | .again => .isTrue trivial
  | .failed => .isTrue trivial

/-! ## One call of `send_all` -/

/-- What is accepted are the first bytes, and the count returned is theirs. -/
theorem sendAll_accepted (sends : List SendResult) (data : Bytes) :
    (sendAll sends data).accepted <+: data ∧
      ∀ n, (sendAll sends data).returned = some n → n = (sendAll sends data).accepted.length := by
  induction sends, data using sendAll.induct with
  | case1 sends =>
    rw [sendAll]
    exact ⟨List.prefix_rfl, fun n hn => (Option.some.inj hn).symm⟩
  | case2 data hne =>
    rw [sendAll]
    · exact ⟨List.prefix_rfl, fun n hn => (Option.some.inj hn).symm⟩
    · exact hne
  | case3 n sends data hne ih =>
    obtain ⟨haccepted, hreturned⟩ := ih
    rw [sendAll]
    · refine ⟨?_, fun m hm => ?_⟩
      · have hwhole := (List.prefix_append_right_inj (data.take (n + 1))).mpr haccepted
        rwa [List.take_append_drop] at hwhole
      · obtain ⟨l, hl, rfl⟩ := Option.map_eq_some_iff.mp hm
        rw [hreturned l hl, List.length_append]
    · exact hne
  | case4 sends data hne ih =>
    rw [sendAll]
    · exact ih
    · exact hne
  | case5 sends data hne =>
    rw [sendAll]
    · exact ⟨List.nil_prefix, fun n hn => (Option.some.inj hn).symm⟩
    · exact hne
  | case6 sends data hne =>
    rw [sendAll]
    · exact ⟨List.nil_prefix, fun n hn => by cases hn⟩
    · exact hne
  | case7 sends data hne =>
    rw [sendAll]
    · exact ⟨List.nil_prefix, fun n hn => by cases hn⟩
    · exact hne

/-- When no send returns 0, a call that returns no error has sent everything. -/
theorem sendAll_nonzero {sends : List SendResult} (h : ∀ r ∈ sends, r.Nonzero) (data : Bytes) :
    (∀ r ∈ (sendAll sends data).sends, r.Nonzero) ∧
      ((sendAll sends data).returned.isSome = true → (sendAll sends data).accepted = data) := by
  induction sends, data using sendAll.induct with
  | case1 sends => exact ⟨by simpa [sendAll] using h, fun _ => by simp [sendAll]⟩
  | case2 data hne =>
    rw [sendAll]
    · exact ⟨by simp, fun _ => rfl⟩
    · exact hne
  | case3 n sends data hne ih =>
    obtain ⟨hleft, haccepted⟩ := ih (List.forall_mem_cons.mp h).2
    rw [sendAll]
    · refine ⟨hleft, fun hreturned => ?_⟩
      rw [Option.isSome_map] at hreturned
      rw [haccepted hreturned, List.take_append_drop]
    · exact hne
  | case4 sends data hne ih =>
    rw [sendAll]
    · exact ih (List.forall_mem_cons.mp h).2
    · exact hne
  | case5 sends data hne => exact (h .zero List.mem_cons_self).elim
  | case6 sends data hne =>
    rw [sendAll]
    · exact ⟨(List.forall_mem_cons.mp h).2, fun hreturned => by cases hreturned⟩
    · exact hne
  | case7 sends data hne =>
    rw [sendAll]
    · exact ⟨(List.forall_mem_cons.mp h).2, fun hreturned => by cases hreturned⟩
    · exact hne

/-- The first complete line of the input is the first of the session. -/
theorem sessionLines_cons {s : Bytes} (hs : 10 ∉ s) (t : Bytes) :
    sessionLines (s ++ 10 :: t) =
      stripCr s :: if commandWord (stripCr s) = text "QUIT" then [] else sessionLines t := by
  have hframed : framedLines (s ++ 10 :: t) = stripCr s :: framedLines t := by
    rw [framedLines, segments_append hs, List.map_cons, framedLines]
  rw [sessionLines_eq, hframed, List.cons_append, untilQuit, sessionLines_eq]
  split_ifs <;> rfl

/-- What the lines of a buffer leave stands behind as many terminators. -/
theorem LineBuffer.lines_left_eq (bytes : Bytes) :
    (lines ⟨bytes⟩).2.buf_ = after 10 (lines ⟨bytes⟩).1.length bytes := by
  obtain ⟨b, hb⟩ : ∃ b : LineBuffer, b.buf_ = bytes := ⟨⟨bytes⟩, rfl⟩
  subst hb
  induction b using lines_induction with
  | hnone b hno =>
    rw [lines_none hno, List.length_nil, after]
  | hcons s t hs ih => rw [lines_cons hs, List.length_cons, after_append hs, ih]

/-- The bytes that the call returns. -/
def RecvResult.bytes : RecvResult → Bytes
  | .data chunk => chunk.bytes
  | _ => []

namespace Client

variable {c : Client} {all shown : Bytes}

/-! ## What is printed -/

/-- What a client holds of the server's stream: the lines printed and the bytes buffered. -/
def screen (c : Client) : List Bytes × LineBuffer := (c.printed, c.serverLines)

/-- The bytes that a turn takes from the socket. -/
def received (c : Client) : Poll → Bytes
  | .ready stdin (some r) => if c.running && (c.stdinPart stdin).running then r.bytes else []
  | _ => []

private theorem screen_sendTyped (fuel : Nat) (c : Client) :
    (sendTyped fuel c).screen = c.screen := by
  induction fuel generalizing c with
  | zero => rfl
  | succ fuel ih =>
    unfold sendTyped
    split
    · rfl
    · rename_i line rest hline
      have hsent : ({ c with stdinLines := rest }.sendLine (line ++ [10])).1.screen = c.screen :=
        rfl
      split
      · rename_i c' hc'
        rw [hc'] at hsent
        exact hsent
      · rename_i c' hc'
        rw [hc'] at hsent
        split
        · exact hsent
        · exact (ih c').trans hsent

private theorem screen_endInput (c : Client) : c.endInput.screen = c.screen := by
  unfold endInput
  split <;> rfl

/-- Standard input has no part in what is printed. -/
theorem screen_stdinPart (c : Client) (ready : Bool) : (c.stdinPart ready).screen = c.screen := by
  unfold stdinPart
  split
  · unfold onStdin
    split
    · exact screen_endInput _
    · exact (screen_endInput _).trans (screen_sendTyped ..)
    · exact screen_endInput _
    · exact screen_endInput _
    · rfl
  · rfl

/-- The lines that the bytes received complete are printed. -/
theorem screen_onServer (h : c.screen = LineBuffer.lines ⟨shown⟩) (r : RecvResult) :
    (c.onServer r).screen = LineBuffer.lines ⟨shown ++ r.bytes⟩ := by
  cases r with
  | data chunk =>
    have hlines := (LineBuffer.mk shown).lines_feed chunk.bytes
    rw [← h] at hlines
    exact hlines.symm
  | _ =>
    simp only [RecvResult.bytes, List.append_nil, ← h]
    rfl

/-- What a turn prints are the lines that the bytes it receives complete. -/
theorem turn_screen (h : c.screen = LineBuffer.lines ⟨shown⟩) (p : Poll) :
    (c.turn p).screen = LineBuffer.lines ⟨shown ++ c.received p⟩ := by
  have hnothing : c.screen = LineBuffer.lines ⟨shown ++ []⟩ := by rw [List.append_nil, h]
  cases p with
  | eintr =>
    have hsame : c.turn .eintr = c := by
      unfold turn
      split <;> rfl
    rw [hsame]
    exact hnothing
  | failed =>
    have hsame : (c.turn .failed).screen = c.screen := by
      unfold turn
      split <;> rfl
    rw [hsame]
    exact hnothing
  | ready stdin server =>
    have hpart := screen_stdinPart c stdin
    cases hrunning : c.running with
    | false =>
      have hsame : c.turn (.ready stdin server) = c := by simp [turn, hrunning]
      have hnone : c.received (.ready stdin server) = [] := by
        cases server <;> simp [received, hrunning]
      rw [hsame, hnone]
      exact hnothing
    | true =>
      have hturn : c.turn (.ready stdin server) = (c.stdinPart stdin).serverPart server := by
        simp [turn, hrunning]
      rw [hturn]
      cases server with
      | none => exact hpart.trans hnothing
      | some r =>
        cases hgoes : (c.stdinPart stdin).running with
        | false =>
          have hsame : (c.stdinPart stdin).serverPart (some r) = c.stdinPart stdin := by
            simp [serverPart, hgoes]
          have hnone : c.received (.ready stdin (some r)) = [] := by simp [received, hgoes]
          rw [hsame, hnone]
          exact hpart.trans hnothing
        | true =>
          have hserver : (c.stdinPart stdin).serverPart (some r) =
              (c.stdinPart stdin).onServer r := by simp [serverPart, hgoes]
          have hbytes : c.received (.ready stdin (some r)) = r.bytes := by
            simp [received, hrunning, hgoes]
          rw [hserver, hbytes]
          exact screen_onServer (hpart.trans h) r

private theorem run_screen (h : c.screen = LineBuffer.lines ⟨shown⟩) (polls : List Poll) :
    (Runs.run turn c polls).screen =
      LineBuffer.lines ⟨shown ++ (Runs.outputs turn received c polls).flatten⟩ := by
  induction polls generalizing c shown with
  | nil => simpa [Runs.outputs] using h
  | cons p polls ih =>
    have hrest := ih (turn_screen h p)
    rwa [List.append_assoc] at hrest

/-! ## What is sent -/

/-- What has been sent begins the lines of the client. While standard input is polled, it is
followed by what the bytes typed and not yet sent will make of it. -/
structure Speaks (c : Client) (all : Bytes) : Prop where
  sent : c.wire <+: all
  nonzero : ∀ r ∈ c.sends, r.Nonzero
  shut : c.shut = true → c.stdinOpen = false
  whole : c.running = true → c.stdinOpen = true → c.sentQuit = false ∧
    10 ∉ c.stdinLines.buf_ ∧
    c.wire ++ terminated 10 (sessionLines (c.stdinLines.buf_ ++ typed c.stdin)) = all

/-- A line is sent whole, or the send fails after the first bytes of it. -/
theorem sendLine_nonzero (h : ∀ r ∈ c.sends, r.Nonzero) (line : Bytes) :
    ∃ accepted sends ok, (∀ r ∈ sends, r.Nonzero) ∧ accepted <+: line ∧
      (ok = true → accepted = line) ∧
      c.sendLine line = ({ c with wire := c.wire ++ accepted, sends := sends }, ok) := by
  obtain ⟨hleft, hwhole⟩ := sendAll_nonzero h line
  exact ⟨_, _, _, hleft, (sendAll_accepted c.sends line).1, hwhole, rfl⟩

/-- The loop over the lines typed: what is sent begins the lines of the client, all those typed
up to the first QUIT unless a send fails. -/
theorem sendTyped_nonzero {fuel : Nat} {later : Bytes} (h : ∀ r ∈ c.sends, r.Nonzero)
    (hquit : c.sentQuit = false) (hfuel : c.stdinLines.buf_.length ≤ fuel)
    (hall : c.wire ++ terminated 10 (sessionLines (c.stdinLines.buf_ ++ later)) = all) :
    ∃ left sends wire sentQuit, (∀ r ∈ sends, r.Nonzero) ∧ wire <+: all ∧
      (sentQuit = false → 10 ∉ left.buf_ ∧
        wire ++ terminated 10 (sessionLines (left.buf_ ++ later)) = all) ∧
      sendTyped fuel c = { c with
        stdinLines := left, sends := sends, wire := wire, sentQuit := sentQuit } := by
  obtain ⟨b, hb⟩ : ∃ b, c.stdinLines = b := ⟨_, rfl⟩
  rw [hb] at hfuel hall
  induction b using LineBuffer.lines_induction generalizing c fuel with
  | hnone b hno =>
    have hnone : sendTyped fuel c = c := by
      cases fuel with
      | zero => rfl
      | succ fuel => simp only [sendTyped, hb, LineBuffer.nextLine_eq_none.mpr hno]
    refine ⟨b, c.sends, c.wire, false, h, hall ▸ List.prefix_append .., fun _ => ⟨hno, hall⟩, ?_⟩
    rw [hnone, ← hb, ← hquit]
  | hcons s t hs ih =>
    rw [List.length_append, List.length_cons] at hfuel
    obtain ⟨fuel, rfl⟩ : ∃ n, fuel = n + 1 := ⟨fuel - 1, by omega⟩
    have hnext := hb ▸ LineBuffer.nextLine_append hs t
    rw [List.append_assoc, List.cons_append, sessionLines_cons hs, terminated_cons] at hall
    obtain ⟨accepted, sends, ok, hsends, haccepted, hwhole, hsent⟩ :=
      sendLine_nonzero (c := { c with stdinLines := ⟨t⟩ }) h (stripCr s ++ [10])
    cases ok with
    | false =>
      refine ⟨⟨t⟩, sends, c.wire ++ accepted, true, hsends, ?_, (by simp), ?_⟩
      · rw [← hall]
        refine (List.prefix_append_right_inj _).mpr (haccepted.trans ?_)
        exact ⟨_, List.append_assoc ..⟩
      · simp only [sendTyped, hnext, hsent]
    | true =>
      obtain rfl := hwhole rfl
      have hround := sendTyped_succ fuel hnext hsent
      by_cases hword : commandWord (stripCr s) = text "QUIT"
      · rw [if_pos hword] at hall hround
        refine ⟨⟨t⟩, sends, c.wire ++ (stripCr s ++ [10]), true, hsends, ?_, (by simp), hround⟩
        rw [← hall]
        exact List.prefix_rfl
      · rw [if_neg hword] at hall hround
        have hshorter : t.length ≤ fuel := by omega
        obtain ⟨left, sends', wire, sentQuit, hsends', hwire, hleft, htyped⟩ := ih
          (c := { c with
            stdinLines := ⟨t⟩, wire := c.wire ++ (stripCr s ++ [10]), sends := sends })
          hsends hquit (by simpa using hall) hshorter rfl
        exact ⟨left, sends', wire, sentQuit, hsends', hwire, hleft, hround.trans htyped⟩

/-- Reading the keyboard keeps what is sent in step with what is typed. -/
theorem Speaks.onStdin (h : Speaks c all) (hrunning : c.running = true)
    (hopen : c.stdinOpen = true) : Speaks c.onStdin all := by
  obtain ⟨hquit, hdrained, hall⟩ := h.whole hrunning hopen
  have hshut : ∀ {b : Bool}, c.shut = true → b = false := fun hshut => by
    rw [h.shut hshut] at hopen
    cases hopen
  cases hstdin : c.stdin with
  | nil =>
    obtain ⟨accepted, sends, ok, hsends, haccepted, -, hsent⟩ :=
      sendLine_nonzero h.nonzero (text "QUIT" ++ [10])
    have hend : sessionLines c.stdinLines.buf_ = [text "QUIT"] := by
      simp [sessionLines, framedLines_of_not_mem hdrained]
    rw [hstdin, typed, List.flatMap_nil, List.append_nil, hend] at hall
    simp only [Client.onStdin, hstdin, hsent, endInput, if_true]
    refine ⟨?_, hsends, fun _ => rfl, fun _ hopen' => by cases hopen'⟩
    rw [← hall]
    exact (List.prefix_append_right_inj _).mpr (by simpa using haccepted)
  | cons r stdin =>
    have hidle : r.bytes = [] → Speaks { c with stdin := stdin }.endInput all := by
      intro hr
      have htyped : typed c.stdin = typed stdin := by simp [hstdin, typed, hr]
      rw [htyped] at hall
      simp only [endInput, hquit, Bool.false_eq_true, if_false]
      exact ⟨h.sent, h.nonzero, hshut, fun _ _ => ⟨rfl, hdrained, hall⟩⟩
    cases r with
    | data chunk =>
      let b := c.stdinLines.feed chunk.bytes
      have hfed : c.stdinLines.buf_ ++ typed c.stdin = b.buf_ ++ typed stdin := by
        rw [hstdin]
        exact (List.append_assoc ..).symm
      rw [hfed] at hall
      obtain ⟨left, sends, wire, sentQuit, hsends, hwire, hleft, hsent⟩ := sendTyped_nonzero
        (c := { c with stdin := stdin, stdinLines := b }) h.nonzero hquit le_rfl hall
      have hresult : c.onStdin = (sendTyped b.buf_.length
          { c with stdin := stdin, stdinLines := b }).endInput := by
        simp only [Client.onStdin, hstdin, b]
      rw [hresult, hsent]
      cases sentQuit with
      | true => exact ⟨hwire, hsends, fun _ => rfl, fun _ hopen' => by cases hopen'⟩
      | false => exact ⟨hwire, hsends, hshut, fun _ _ => ⟨rfl, hleft rfl⟩⟩
    | eintr => simpa only [Client.onStdin, hstdin] using hidle rfl
    | again => simpa only [Client.onStdin, hstdin] using hidle rfl
    | failed =>
      simp only [Client.onStdin, hstdin]
      exact ⟨h.sent, h.nonzero, hshut, fun hgoes => by cases hgoes⟩

/-- What comes from the server can only end the loop. -/
theorem Speaks.serverPart (h : Speaks c all) (server : Option RecvResult) :
    Speaks (c.serverPart server) all := by
  obtain ⟨_, _, running, he, -⟩ := c.serverPart_eq server
  have hgoes : (c.serverPart server).running = true → c.running = true := by
    unfold Client.serverPart
    split
    · exact id
    · split
      · rename_i hrunning
        exact fun _ => hrunning
      · exact id
  rw [he] at hgoes ⊢
  exact ⟨h.sent, h.nonzero, h.shut, fun hrunning => h.whole (hgoes hrunning)⟩

/-- A turn of the loop keeps what is sent in step with what is typed. -/
theorem Speaks.turn (h : Speaks c all) (p : Poll) : Speaks (c.turn p) all := by
  unfold Client.turn
  split
  · rename_i hrunning
    cases p with
    | ready stdin server =>
      refine Speaks.serverPart ?_ server
      unfold stdinPart
      split
      · rename_i hopen
        exact h.onStdin hrunning (Bool.and_eq_true_iff.mp hopen).1
      · exact h
    | eintr => exact h
    | failed => exact ⟨h.sent, h.nonzero, h.shut, fun hgoes => by cases hgoes⟩
  · exact h

/-- A run of the loop keeps what is sent in step with what is typed. -/
theorem Speaks.run (h : Speaks c all) (polls : List Poll) :
    Speaks (Runs.run Client.turn c polls) all :=
  run_invariant (P := fun c => Speaks c all) (fun _ p h => h.turn p) h polls

/-- What has been sent stays sent. -/
theorem wire_sendTyped (fuel : Nat) (c : Client) : c.wire <+: (sendTyped fuel c).wire := by
  induction fuel generalizing c with
  | zero => exact List.prefix_rfl
  | succ fuel ih =>
    unfold sendTyped
    split
    · exact List.prefix_rfl
    · rename_i line rest hline
      have hsent : c.wire <+: ({ c with stdinLines := rest }.sendLine (line ++ [10])).1.wire :=
        List.prefix_append ..
      split
      · rename_i c' hc'
        rw [hc'] at hsent
        exact hsent
      · rename_i c' hc'
        rw [hc'] at hsent
        split
        · exact hsent
        · exact hsent.trans (ih c')

private theorem wire_endInput (c : Client) : c.endInput.wire = c.wire := by
  unfold endInput
  split <;> rfl

/-- A turn only adds to what has been sent. -/
theorem wire_turn (c : Client) (p : Poll) : c.wire <+: (c.turn p).wire := by
  have hpart : ∀ ready, c.wire <+: (c.stdinPart ready).wire := by
    intro ready
    unfold stdinPart
    split
    · unfold onStdin
      split
      · rw [wire_endInput]
        exact List.prefix_append ..
      · rw [wire_endInput]
        refine List.IsPrefix.trans ?_ (wire_sendTyped ..)
        exact List.prefix_rfl
      · rw [wire_endInput]
      · rw [wire_endInput]
      · exact List.prefix_rfl
    · exact List.prefix_rfl
  unfold turn
  split
  · cases p with
    | ready stdin server =>
      obtain ⟨_, _, _, he, -⟩ := (c.stdinPart stdin).serverPart_eq server
      simp only [he]
      exact hpart stdin
    | eintr => exact List.prefix_rfl
    | failed => exact List.prefix_rfl
  · exact List.prefix_rfl

/-- A client that has left its loop or polls standard input no more sends nothing. -/
theorem turn_wire_of_done (h : c.running = false ∨ c.stdinOpen = false) (p : Poll) :
    (c.turn p).wire = c.wire := by
  unfold turn
  split
  · rename_i hrunning
    have hopen : c.stdinOpen = false := h.resolve_left (by simp [hrunning])
    cases p with
    | ready stdin server =>
      obtain ⟨_, _, _, he, -⟩ := (c.stdinPart stdin).serverPart_eq server
      simp only [he]
      simp [stdinPart, hopen]
    | eintr => rfl
    | failed => rfl
  · rfl

private theorem turn_done (h : c.running = false ∨ c.stdinOpen = false) (p : Poll) :
    (c.turn p).running = false ∨ (c.turn p).stdinOpen = false := by
  unfold turn
  split
  · rename_i hrunning
    have hopen : c.stdinOpen = false := h.resolve_left (by simp [hrunning])
    cases p with
    | ready stdin server =>
      obtain ⟨_, _, _, he, -⟩ := (c.stdinPart stdin).serverPart_eq server
      simp only [he]
      simp [stdinPart, hopen]
    | eintr => exact Or.inr hopen
    | failed => exact Or.inl rfl
  · exact h

/-! ## From the start -/

/-- The start-up lines are sent whole, or the client exits. -/
theorem greet_speaks (h : ∀ r ∈ c.sends, r.Nonzero) (hopen : c.stdinOpen = true)
    (hquit : c.sentQuit = false) (hshut : c.shut = false) (hempty : c.stdinLines = {})
    (lines : List Bytes)
    (hall : c.wire ++ terminated 10 (lines ++ sessionLines (typed c.stdin)) = all) :
    Speaks (c.greet lines) all ∧ (c.greet lines).screen = c.screen := by
  induction lines generalizing c with
  | nil =>
    have hsame : c.greet [] = c := rfl
    rw [hsame]
    refine ⟨⟨hall ▸ List.prefix_append .., h, fun hyes => ?_, fun _ _ => ⟨hquit, ?_, ?_⟩⟩, rfl⟩
    · simp [hshut] at hyes
    · simp [hempty]
    · simpa [hempty] using hall
  | cons line lines ih =>
    obtain ⟨accepted, sends, ok, hsends, haccepted, hwhole, hsent⟩ :=
      sendLine_nonzero h (line ++ [10])
    rw [List.cons_append, terminated_cons] at hall
    cases ok with
    | true =>
      obtain rfl := hwhole rfl
      have hnext : c.greet (line :: lines) =
          greet { c with wire := c.wire ++ (line ++ [10]), sends := sends } lines := by
        simp only [greet, hsent]
      rw [hnext]
      exact ih hsends hopen hquit hshut hempty (by simpa using hall)
    | false =>
      simp only [greet, hsent]
      refine ⟨⟨?_, hsends, fun hyes => ?_, fun hgoes => by cases hgoes⟩, rfl⟩
      · rw [← hall]
        refine (List.prefix_append_right_inj _).mpr (haccepted.trans ?_)
        exact ⟨_, List.append_assoc ..⟩
      · simp [hshut] at hyes

/-- A client that starts speaks its start-up lines and what is typed, with an empty screen. -/
theorem start_speaks (p : Program) (args : List Bytes) (stdin : List ReadResult)
    {sends : List SendResult} (h : ∀ r ∈ sends, r.Nonzero) :
    Speaks (start p args stdin sends) (terminated 10 (sentLines p args (typed stdin))) ∧
      (start p args stdin sends).screen = LineBuffer.lines ⟨[]⟩ := by
  obtain ⟨hspeaks, hscreen⟩ := greet_speaks (c := { stdin := stdin, sends := sends }) h rfl rfl rfl
    rfl (p.greeting args) rfl
  exact ⟨hspeaks, hscreen.trans (LineBuffer.lines_none List.not_mem_nil).symm⟩

/-- Whatever the reads, polls and receives of a client return, and whatever its sends return but
0: at every time what it has sent begins its lines, and it has printed the complete lines of the
bytes it has received and buffered what follows them. Once it has shut down its sending side or
left its loop, it sends nothing more. -/
theorem run_transcript (p : Program) (args : List Bytes) (stdin : List ReadResult)
    (sends : List SendResult) (polls : List Poll) (hsends : ∀ r ∈ sends, r.Nonzero) :
    let c₀ := start p args stdin sends
    let c := run turn c₀ polls
    let bytes := (Runs.outputs turn received c₀ polls).flatten
    c.wire <+: terminated 10 (sentLines p args (typed stdin)) ∧
      c.printed = framedLines bytes ∧ c.serverLines.buf_ = after 10 c.printed.length bytes ∧
      (c.running = false ∨ c.shut = true → ∀ polls', (run turn c polls').wire = c.wire) := by
  intro c₀ c bytes
  obtain ⟨hspeaks, hscreen⟩ := start_speaks p args stdin hsends
  have hspoken : Speaks c (terminated 10 (sentLines p args (typed stdin))) := hspeaks.run polls
  have hshown : c.screen = LineBuffer.lines ⟨bytes⟩ := run_screen hscreen polls
  have hprinted : c.printed = (LineBuffer.lines ⟨bytes⟩).1 := congrArg Prod.fst hshown
  have hbuffered : c.serverLines = (LineBuffer.lines ⟨bytes⟩).2 := congrArg Prod.snd hshown
  refine ⟨hspoken.sent, ?_, ?_, fun hdone polls' => ?_⟩
  · rw [hprinted, LineBuffer.lines_eq_framed]
  · rw [hprinted, hbuffered, LineBuffer.lines_left_eq]
  · have hquiet : c.running = false ∨ c.stdinOpen = false := hdone.imp_right hspoken.shut
    refine (run_invariant (P := fun c' : Client =>
      (c'.running = false ∨ c'.stdinOpen = false) ∧ c'.wire = c.wire) ?_ ⟨hquiet, rfl⟩ polls').2
    rintro c' p ⟨hquiet', hwire⟩
    exact ⟨turn_done hquiet' p, (turn_wire_of_done hquiet' p).trans hwire⟩

/-- A send fails inside the second line: nothing is sent after it, and what the server still sends
is printed. -/
theorem run_transcript_failed_send :
    let stdin : List ReadResult := [.data ⟨text "BUY XYZ 5 10\nQUIT\n", by decide, by decide⟩]
    let c := run turn (start .traderClient [text "bob"] stdin [.sent 99, .sent 3, .failed])
      [.ready false (some (.data ⟨text "OK\nER", by decide, by decide⟩)), .ready true none,
        .ready true (some (.data ⟨text "ROR empty\n", by decide, by decide⟩))]
    c.wire = text "LOGIN bob\nBUY " ∧ c.printed = [text "OK", text "ERROR empty"] ∧
      ∀ polls', (run turn c polls').wire = c.wire := by
  intro stdin c
  obtain ⟨-, hprinted, -, hquiet⟩ := run_transcript .traderClient [text "bob"] stdin
    [.sent 99, .sent 3, .failed]
    [.ready false (some (.data ⟨text "OK\nER", by decide, by decide⟩)), .ready true none,
      .ready true (some (.data ⟨text "ROR empty\n", by decide, by decide⟩))] (by decide)
  have hshut : c.shut = true := by decide
  exact ⟨by decide, hprinted.trans (by decide), hquiet (Or.inr hshut)⟩

end Client

end SocketExchange
