import SocketExchange.Service.Calls

/-!
# Rejected commands

A line that is answered by an error changes nothing but the output of its session and,
if it was still open, the session's role. An order command is answered by an error
exactly when it is no well-formed order.
-/

namespace SocketExchange

open Containers ClientSession Runs OrderBook

/-- The entry enqueues a line that begins with ERROR. -/
def Obs.IsError : Obs → Prop
  | .enqueued _ line => text "ERROR" <+: line
  | _ => False

/-- A run of digits with a value from 1 to the largest allowed. -/
def IsPositiveNumber (s : Bytes) : Prop :=
  s.all Decimal.isDigit = true ∧ 1 ≤ Decimal.value s ∧ Decimal.value s ≤ 2147483647

/-- Four words: the command, a valid instrument, a quantity and a price. -/
def WellFormedOrder (line : Bytes) : Prop :=
  ∃ instrument quantity limit, tokenize line = [commandWord line, instrument, quantity, limit] ∧
    isValidInstrument instrument = true ∧ IsPositiveNumber quantity ∧ IsPositiveNumber limit

private theorem parsePositiveInt_isSome {s : Bytes} :
    (∃ n, parsePositiveInt s = some n) ↔ IsPositiveNumber s := by
  have hmax : maxValue = 2147483647 := rfl
  simp only [parsePositiveInt_eq_some, IsPositiveNumber]
  constructor
  · rintro ⟨n, hall, heq, hpos, hle⟩
    refine ⟨hall, ?_, ?_⟩ <;> omega
  · rintro ⟨hall, hpos, hle⟩
    exact ⟨Decimal.value s, hall, rfl, by omega, by omega⟩

/-- The well-formed order commands are those that ask for an order. -/
theorem wellFormedOrder_iff {line : Bytes}
    (hword : commandWord line ∈ [text "BUY", text "SELL"]) :
    WellFormedOrder line ↔ ∃ o, Places line o := by
  constructor
  · rintro ⟨instrument, quantity, limit, hline, hinstrument, hquantity, hlimit⟩
    obtain ⟨qty, hqty⟩ := parsePositiveInt_isSome.mpr hquantity
    obtain ⟨price, hprice⟩ := parsePositiveInt_isSome.mpr hlimit
    have hside : ∃ side : Side,
        commandWord line = text (if side = .buy then "BUY" else "SELL") := by
      rcases List.mem_cons.mp hword with hbuy | hsell
      · exact ⟨.buy, hbuy⟩
      · exact ⟨.sell, List.mem_singleton.mp hsell⟩
    obtain ⟨side, hside⟩ := hside
    rw [hside] at hline
    exact ⟨⟨0, side, instrument, qty, price, 0, 0⟩, quantity, limit, hline, hinstrument, hqty,
      hprice⟩
  · rintro ⟨o, ho⟩
    have hside := ho.word
    obtain ⟨quantity, limit, hline, hinstrument, hqty, hprice⟩ := ho
    rw [← hside] at hline
    exact ⟨o.instrument, quantity, limit, hline, hinstrument, parsePositiveInt_isSome.mp ⟨_, hqty⟩,
      parsePositiveInt_isSome.mp ⟨_, hprice⟩⟩

/-- The second session is the first after an answer: its output may differ, and its role if it
was open. -/
structure ClientSession.Answered (c c' : ClientSession) : Prop where
  same : c' = { c with role := c'.role, outbuf := c'.outbuf, wantWrite := c'.wantWrite }
  role : c.role = .unknown ∨ c'.role = c.role

/-- A session may be left unchanged by an answer. -/
theorem ClientSession.Answered.refl (c : ClientSession) : Answered c c := ⟨rfl, Or.inr rfl⟩

/-- Answering twice is answering. -/
theorem ClientSession.Answered.trans {c c' c'' : ClientSession} (h : Answered c c')
    (h' : Answered c' c'') : Answered c c'' where
  same := by
    have hsame := h'.same
    rw [h.same] at hsame
    exact hsame
  role := by
    rcases h.role with hunknown | hrole
    · exact Or.inl hunknown
    · rw [← hrole]
      exact h'.role

namespace Server

variable {s s' s'' : Server} {fd : Int} {c : ClientSession} {line : Bytes}

/-- All that a rejected line leaves as it was: the book and its next id, the sessions other than
the one at the descriptor and all of that one but its output and an open role, the counters, and
the kernel except for what goes to the connection. -/
structure Spared (s : Server) (fd : Int) (conn : Nat) (s' : Server) : Prop where
  book : s'.book = s.book
  fds : s'.sessions.keys = s.sessions.keys
  session : ∀ c, s.sessions.lookup fd = some c →
    ∃ c', s'.sessions.lookup fd = some c' ∧ Answered c c'
  others : ∀ fd', fd' ≠ fd → s'.sessions.lookup fd' = s.sessions.lookup fd'
  counters : s'.nextSessionSeq = s.nextSessionSeq ∧ s'.accepted = s.accepted
  descriptors : s'.kq = s.kq ∧ s'.listenFd = s.listenFd
  registered : ∀ r, r ≠ (fd, Filter.write) →
    (r ∈ s'.kernel.registered ↔ r ∈ s.kernel.registered)
  wire : ∀ k, k ≠ conn → s'.kernel.wire k = s.kernel.wire k

/-- What two steps spare they spare together. -/
theorem Spared.trans {conn : Nat} (h : Spared s fd conn s') (h' : Spared s' fd conn s'') :
    Spared s fd conn s'' where
  book := h'.book.trans h.book
  fds := h'.fds.trans h.fds
  session c hc := by
    obtain ⟨c', hc', he⟩ := h.session c hc
    obtain ⟨c'', hc'', he'⟩ := h'.session c' hc'
    exact ⟨c'', hc'', he.trans he'⟩
  others fd' hne := (h'.others fd' hne).trans (h.others fd' hne)
  counters := ⟨h'.counters.1.trans h.counters.1, h'.counters.2.trans h.counters.2⟩
  descriptors := ⟨h'.descriptors.1.trans h.descriptors.1, h'.descriptors.2.trans h.descriptors.2⟩
  registered r hr := (h'.registered r hr).trans (h.registered r hr)
  wire k hk := (h'.wire k hk).trans (h.wire k hk)

private theorem spared_log (s : Server) (fd : Int) (conn : Nat) (obs : List Obs) :
    Spared s fd conn (s.log obs) :=
  ⟨rfl, rfl, fun c hc => ⟨c, hc, .refl c⟩, fun _ _ => rfl, ⟨rfl, rfl⟩, ⟨rfl, rfl⟩,
    fun _ _ => Iff.rfl, fun _ _ => rfl⟩

private theorem spared_update (s : Server) (fd : Int) (conn : Nat)
    {f : ClientSession → ClientSession}
    (hf : ∀ c, Answered c (f c)) : Spared s fd conn (s.update fd f) where
  book := rfl
  fds := UnorderedMap.keys_modify ..
  session c hc := ⟨f c, lookup_update_of hc f, hf c⟩
  others _ hne := UnorderedMap.lookup_modify_ne hne ..
  counters := ⟨rfl, rfl⟩
  descriptors := ⟨rfl, rfl⟩
  registered _ _ := Iff.rfl
  wire _ _ := rfl

private theorem spared_transmit (s : Server) (fd : Int) (conn : Nat) (bytes : Bytes)
    (sends : List SendResult) : Spared s fd conn (s.transmit conn bytes sends) where
  book := rfl
  fds := rfl
  session c hc := ⟨c, hc, .refl c⟩
  others _ _ := rfl
  counters := ⟨rfl, rfl⟩
  descriptors := ⟨rfl, rfl⟩
  registered _ _ := Iff.rfl
  wire _ hk := Function.update_of_ne hk ..

private theorem spared_kqAdd (s : Server) (fd : Int) (conn : Nat) :
    Spared s fd conn (s.kqAdd fd .write) where
  book := rfl
  fds := rfl
  session c hc := ⟨c, hc, .refl c⟩
  others _ _ := rfl
  counters := ⟨rfl, rfl⟩
  descriptors := ⟨rfl, rfl⟩
  registered r hr := by
    have hmem := Finset.mem_insert (s := s.kernel.registered) (a := r) (b := (fd, Filter.write))
    exact hmem.trans (or_iff_right hr)
  wire _ _ := rfl

/-- An enqueued line touches the output of its session alone. -/
theorem spared_enqueue (hc : s.sessions.lookup fd = some c) (hfd : c.fd = fd) (line : Bytes) :
    Spared s fd c.conn (s.enqueue fd line) := by
  let r := sendLoop s.kernel.sends (framed line)
  have hlogged := spared_log s fd c.conn [.enqueued c.conn line]
  have hsent := hlogged.trans (spared_transmit _ fd _ r.accepted r.sends)
  have houtbuf : ∀ outbuf c, Answered c (setOutbuf outbuf c) := fun _ _ => ⟨rfl, Or.inr rfl⟩
  have hwant : ∀ want c, Answered c (setWantWrite want c) := fun _ _ => ⟨rfl, Or.inr rfl⟩
  have henqueues := enqueue_enqueues hc line
  generalize s.enqueue fd line = s' at henqueues ⊢
  cases henqueues with
  | behind => exact hlogged.trans (spared_update _ fd _ (houtbuf _))
  | direct => exact hsent
  | held => exact hsent.trans (spared_update _ fd _ (houtbuf _))
  | armed =>
    have hqueued := hsent.trans (spared_update _ fd _ (houtbuf [r.left]))
    rw [hfd]
    exact (hqueued.trans (spared_kqAdd _ fd _)).trans (spared_update _ fd _ (hwant true))

private theorem spared_noted (s : Server) (fd : Int) (c : ClientSession) (line : Bytes) :
    Spared s fd c.conn (s.noted fd c line) := by
  refine (spared_log s fd c.conn _).trans (spared_update _ fd _ fun c => ?_)
  refine ⟨?_, (continues_inferRole _ c).role⟩
  unfold inferRole
  split_ifs <;> rfl

/-! ## Which lines are answered by an error -/

/-- A line that begins with another letter is no error. -/
private theorem not_isError {k : Nat} {line : Bytes} {b : UInt8} (h : line.head? = some b)
    (hb : b ≠ 69) : ¬ (Obs.enqueued k line).IsError := by
  rintro ⟨rest, rfl⟩
  exact hb (Option.some.inj h).symm

private theorem fillVoices_no_error (fills : List Fill) {o : Obs}
    (ho : o ∈ fills.flatMap s.fillVoice) : ¬ o.IsError := by
  obtain ⟨f, -, hmem⟩ := List.mem_flatMap.mp ho
  rcases mem_fillVoice hmem with rfl | ⟨k, side, rfl⟩ | ⟨k, rfl⟩
  · exact id
  · cases side <;> exact not_isError rfl (by decide)
  · exact not_isError rfl (by decide)

/-- The entries of a placed order. -/
private theorem history_place (hc : s.sessions.lookup fd = some c) (o : Order) :
    (s.place fd c o).history = s.history ++
      .placed c.conn o :: .enqueued c.conn (msgOrderAccepted o.id) ::
        (s.drawn.submit o).1.flatMap s.view.fillVoice := by
  have hview := congrArg Server.history (s.view_place fd c o)
  have hvoice : s.view.voice fd (msgOrderAccepted o.id) =
      [.enqueued c.conn (msgOrderAccepted o.id)] := by
    rw [voice, lookup_view_of hc]
    rfl
  rw [hvoice] at hview
  exact hview

/-- The entries of a change of a session and its OK. -/
private theorem ok_no_error {f : ClientSession → ClientSession} {obs added : List Obs} {o : Obs}
    (hc : s.sessions.lookup fd = some c) (hconn : (f c).conn = c.conn)
    (hhistory : (((s.update fd f).log added).enqueue fd msgOk).history = s.history ++ obs)
    (hadded : ∀ o ∈ added, ¬ o.IsError) (ho : o ∈ obs) : ¬ o.IsError := by
  have hset : ((s.update fd f).log added).sessions.lookup fd = some (f c) := lookup_update_of hc f
  have hreply := history_enqueue hset msgOk
  rw [hhistory, hconn, log, List.append_assoc] at hreply
  have hobs : obs = added ++ [.enqueued c.conn msgOk] := List.append_cancel_left hreply
  rw [hobs, List.mem_append, List.mem_singleton] at ho
  rcases ho with ho | rfl
  · exact hadded o ho
  · exact not_isError rfl (by decide)

/-- Only a rejection answers by an error. -/
theorem Outcome.rejected_of_error {r : Server × Bool} (h : Outcome s fd c line r)
    (hc : s.sessions.lookup fd = some c) {obs : List Obs} (hobs : r.1.history = s.history ++ obs)
    (herror : ∃ o ∈ obs, o.IsError) :
    ∃ reason, r.1 = s.enqueue fd (msgError reason) := by
  obtain ⟨o, ho, herror⟩ := herror
  have hadded : ∀ {obs'}, r.1.history = s.history ++ obs' → o ∈ obs' := fun h' =>
    List.append_cancel_left (hobs.symm.trans h') ▸ ho
  cases h with
  | @rejected reason => exact ⟨reason, rfl⟩
  | @loggedIn name =>
    rw [← log_nil (s := s.update fd (setUsername name))] at hobs
    exact absurd herror (ok_no_error hc rfl hobs (List.forall_mem_nil _) ho)
  | @placed o' =>
    have hmem := hadded (history_place hc o')
    rw [List.mem_cons, List.mem_cons] at hmem
    rcases hmem with rfl | rfl | hmem
    · exact herror.elim
    · exact absurd herror (not_isError rfl (by decide))
    · exact absurd herror (fillVoices_no_error _ hmem)
  | @cancelled oid =>
    have hmem := hadded (history_enqueue
      (s := s.withBook (s.book.cancel oid c.fd c.sessionSeq).2) hc (msgOrderCancelled oid))
    exact absurd (List.mem_singleton.mp hmem ▸ herror) (not_isError rfl (by decide))
  | subscribed =>
    exact absurd herror (ok_no_error hc rfl hobs (List.forall_mem_singleton.mpr id) ho)
  | unsubscribed =>
    exact absurd herror (ok_no_error hc rfl hobs (List.forall_mem_singleton.mpr id) ho)
  | quit =>
    have hview := congrArg Server.history (s.view_closeSession c.fd)
    obtain ⟨obs', hhistory, hclosed⟩ := s.view.forget_entries c.fd
    obtain ⟨k, rfl⟩ := hclosed o (hadded (hview.trans hhistory))
    exact herror.elim

/-- An error among the entries of a line is the only answer to it, and all else is left as it
was. -/
private theorem error_is_alone (hfd : c.fd = fd) (hc : s.sessions.lookup fd = some c)
    (herror : ∃ o ∈ s.since (s.handleLine fd line).1, o.IsError) :
    ∃ reason, s.since (s.handleLine fd line).1 =
        [.received c.conn line, .enqueued c.conn (msgError reason)] ∧
      Spared s fd c.conn (s.handleLine fd line).1 := by
  have hcontinues := continues_inferRole (commandWord line) c
  have hnoted := lookup_noted hc line
  have houtcome := handleLine_outcome hc line
  obtain ⟨obs, hobs, -⟩ := (handleLine_handled hc line).answer
  have hhistory : (s.handleLine fd line).1.history = s.history ++ .received c.conn line :: obs := by
    refine Eq.trans hobs ?_
    exact List.append_assoc s.history [.received c.conn line] obs
  rw [since_of_append hhistory] at herror ⊢
  have herror' : ∃ o ∈ obs, o.IsError := by
    obtain ⟨o, ho, hiserror⟩ := herror
    rcases List.mem_cons.mp ho with rfl | ho
    · exact hiserror.elim
    · exact ⟨o, ho, hiserror⟩
  obtain ⟨reason, hreason⟩ := houtcome.rejected_of_error hnoted hobs herror'
  have hreply := history_enqueue hnoted (msgError reason)
  rw [← hreason, hcontinues.conn] at hreply
  have hspared := spared_enqueue hnoted (hcontinues.fd.trans hfd) (msgError reason)
  rw [hcontinues.conn] at hspared
  refine ⟨reason, congrArg _ (List.append_cancel_left (hobs.symm.trans hreply)), ?_⟩
  rw [hreason]
  exact (spared_noted s fd c line).trans hspared

/-- A trader's order command is placed, or it is no well-formed order and is rejected. -/
private theorem Outcome.order {r : Server × Bool} (h : Outcome s fd c line r)
    (hrole : c.role = .trader) (hword : commandWord line ∈ [text "BUY", text "SELL"]) :
    (∃ o, Places line o ∧ r.1 = s.place fd c o) ∨
      (∀ o, ¬ Places line o) ∧ ∃ reason, r.1 = s.enqueue fd (msgError reason) := by
  have hother : ∀ {cmd}, commandWord line = cmd → cmd ∉ [text "BUY", text "SELL"] → False :=
    fun heq hnot => hnot (heq ▸ hword)
  cases h with
  | rejected _ _ hnot => exact Or.inr ⟨hnot hrole, _, rfl⟩
  | placed hplaces => exact Or.inl ⟨_, hplaces, rfl⟩
  | loggedIn hlogin => exact (hother hlogin (by decide)).elim
  | cancelled hline => exact (hother hline.word (by decide)).elim
  | subscribed hsub => exact (hother hsub (by decide)).elim
  | unsubscribed hunsub => exact (hother hunsub (by decide)).elim
  | quit hquit => exact (hother hquit (by decide)).elim

/-- In every reachable state a line answered by an error is answered by nothing else and leaves
all else as it was; an order command of a session that is no market-data connection is accepted
exactly when it is well formed, and otherwise draws no id. -/
theorem handleLine_rejection_atomic (hs : Reachable s) (hc : s.sessions.lookup fd = some c)
    (line : Bytes) :
    let s' := (s.handleLine fd line).1
    (∀ k reply, .enqueued k reply ∈ s.since s' → text "ERROR" <+: reply →
      s.since s' = [.received c.conn line, .enqueued k reply] ∧ k = c.conn ∧
        Spared s fd c.conn s') ∧
    (c.role ≠ .marketData → commandWord line ∈ [text "BUY", text "SELL"] →
      ((∃ id, .enqueued c.conn (msgOrderAccepted id) ∈ s.since s') ↔ WellFormedOrder line) ∧
      (¬ WellFormedOrder line → s'.book.nextId_ = s.book.nextId_)) := by
  intro s'
  have hfd : c.fd = fd := hs.consistent.keyed fd c.profile (lookup_view_of hc)
  refine ⟨fun k reply hmem herror => ?_, fun hrole hword => ?_⟩
  · obtain ⟨reason, hsince, hspared⟩ := error_is_alone hfd hc ⟨_, hmem, herror⟩
    rw [hsince] at hmem
    rcases List.mem_cons.mp hmem with hmem | hmem
    · cases hmem
    · obtain ⟨rfl, rfl⟩ := Obs.enqueued.inj (List.mem_singleton.mp hmem)
      exact ⟨hsince, rfl, hspared⟩
  rw [wellFormedOrder_iff hword]
  have htrader : (inferRole (commandWord line) c).role = .trader := by
    refine inferRole_trader ?_ hrole
    rcases List.mem_cons.mp hword with hword | hword
    · rw [hword]
      rfl
    · rw [List.mem_singleton.mp hword]
      rfl
  have hnoted := lookup_noted hc line
  have hconn := (continues_inferRole (commandWord line) c).conn
  have hreceived : (s.noted fd c line).history = s.history ++ [.received c.conn line] := rfl
  rcases (handleLine_outcome hc line).order htrader hword with
    ⟨o, hplaces, hplaced⟩ | ⟨hnot, reason, hrejected⟩
  · refine ⟨⟨fun _ => ⟨o, hplaces⟩, fun _ => ⟨o.id, ?_⟩⟩, fun hno => absurd ⟨o, hplaces⟩ hno⟩
    have hhistory := history_place hnoted o
    rw [← hplaced, hreceived, List.append_assoc, hconn] at hhistory
    rw [since_of_append hhistory]
    simp only [List.mem_append, List.mem_cons, true_or, or_true]
  · refine ⟨⟨?_, fun ⟨o, ho⟩ => absurd ho (hnot o)⟩, fun _ => ?_⟩
    · rintro ⟨id, hmem⟩
      have hhistory := history_enqueue hnoted (msgError reason)
      rw [← hrejected, hreceived, List.append_assoc] at hhistory
      rw [since_of_append hhistory] at hmem
      simp only [List.mem_append, List.mem_singleton, reduceCtorEq, false_or, Obs.enqueued.injEq]
        at hmem
      have hhead := congrArg List.head? hmem.2
      cases hhead
    · have hbook := (s.noted fd c line).book_enqueue fd (msgError reason)
      rw [← hrejected] at hbook
      exact congrArg OrderBook.nextId_ hbook

/-- The first command of a connection is a BUY of nothing: it makes the connection a trader and is
rejected. -/
theorem handleLine_rejection_atomic_zero_quantity :
    let s := run act (start 3 4 []) [.accept 5]
    let line := text "BUY JNST 0 50"
    let reply := msgError (text "quantity must be an integer in 1..2147483647")
    let s' := (s.handleLine 5 line).1
    s.since s' = [.received 0 line, .enqueued 0 reply] ∧ 0 = 0 ∧ Spared s 5 0 s' := by
  intro s line reply s'
  have hs : Reachable s := ⟨3, 4, [], _, rfl⟩
  have hc : s.sessions.lookup 5 = some { fd := 5, sessionSeq := 1 } := rfl
  have hmem : .enqueued 0 reply ∈ s.since s' := by decide
  exact (handleLine_rejection_atomic hs hc line).1 0 reply hmem (by decide)

end Server

end SocketExchange
