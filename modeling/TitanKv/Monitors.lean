import TitanKv.Lib.Broadcast
import TitanKv.Lib.Runs
import TitanKv.Audit

/-! # Connections in monitor mode

Every connection broadcasts its requests, and a connection that has sent MONITOR relays
them. It is told OK before it joins the broadcast, and a lag ends its loop: it is never
shown a request after one that it missed. What it relays goes into a line of its own as
it is, so that a request with a CRLF within an argument reads as more than one. -/

namespace TitanKv
open Utf8 Runs Broadcast

section Feed

/-- What the loop writes for a line. -/
def monitorMessage (msg : Text) : Bytes := lit "+" ++ encode msg ++ lit "\r\n"

/-- A connection past its MONITOR; it has no receiver yet while it is only told OK. -/
structure Monitor where
  receiver : Option (Receiver Text)
  sent : List Bytes
  hasLeft : Bool

/-- All lines that were broadcast, and the connections in monitor mode. -/
structure Feed where
  log : List Text
  monitors : List Monitor

/-- A turn of a monitoring connection: it joins, or `recv` returns a line, with the
outcome of writing it, or that it lags. -/
inductive Relay where
  | subscribe
  | recv (written : Bool)
  | lagged

inductive FeedEvent where
  | enter (written : Bool)
  | request (now : SystemTime) (addr : Text) (parts : List Bytes)
  | turn (i : Nat) (e : Relay)

def Monitor.turn (capacity : Nat) (log : List Text) (m : Monitor) (e : Relay) : Option Monitor :=
  if m.hasLeft then none
  else match e, m.receiver with
    | .subscribe, none => some { m with receiver := some (join log) }
    | .recv written, some r => match poll capacity log r.next with
      | .value msg =>
        some (if written then
            { m with receiver := some (r.take msg), sent := m.sent ++ [monitorMessage msg] }
          else { m with hasLeft := true })
      | _ => none
    | .lagged, some r => match poll capacity log r.next with
      | .lagged _ => some { m with hasLeft := true }
      | _ => none
    | _, _ => none

variable (printSecs : Nat → Text) (capacity : Nat)

namespace Feed

def new : Feed := ⟨[], []⟩

/-- A request is broadcast once its strings are made. -/
def broadcast (feed : Feed) (now : SystemTime) (addr : Text) (parts : List Bytes) : Feed :=
  match audit printSecs now addr parts with
  | some (_, line) => { feed with log := feed.log ++ line.toList }
  | none => feed

def step (feed : Feed) : FeedEvent → Option Feed
  | .enter written =>
    some { feed with
      monitors := feed.monitors ++ [⟨none, if written then [lit "+OK\r\n"] else [], !written⟩] }
  | .request now addr parts => some (feed.broadcast printSecs now addr parts)
  | .turn i e => (feed.monitors[i]?).bind fun m =>
    (m.turn capacity feed.log e).map fun m' => { feed with monitors := feed.monitors.set i m' }

end Feed

/-- The line that is broadcast of a request, if any. -/
def FeedEvent.line? : FeedEvent → Option Text
  | .request now addr parts => (audit printSecs now addr parts).bind Prod.snd
  | _ => none

def FeedEvent.parts : FeedEvent → List Bytes
  | .request _ _ parts => parts
  | _ => []

/-- The lines broadcast in a run, in their order. -/
def broadcastLines (es : List FeedEvent) : List Text := es.filterMap (FeedEvent.line? printSecs)

end Feed

section Contiguous
variable {printSecs : Nat → Text} {capacity : Nat} {feed feed' : Feed} {e : FeedEvent}

/-- A monitor that has joined was sent OK and then the first of the lines since. -/
def Monitor.Shows (log lines : List Text) (m : Monitor) : Prop :=
  ∃ r, m.receiver = some r ∧ m.sent = lit "+OK\r\n" :: r.got.map monitorMessage ∧
    r.Follows log lines (m.hasLeft = false)

theorem shows_turn {log lines : List Text} {m m' : Monitor} {e : Relay} (h : m.Shows log lines)
    (ht : m.turn capacity log e = some m') : m'.Shows log lines := by
  obtain ⟨r, hr, hsent, hfollows⟩ := h
  obtain ⟨hleft, ht⟩ := Option.ite_none_left_eq_some.mp ht
  have hlive : m.hasLeft = false := Bool.eq_false_iff.mpr hleft
  have hgone : r.Follows log lines (true = false) := hfollows.mono fun _ => hlive
  rw [hr] at ht
  cases e with
  | subscribe => cases ht
  | recv written =>
    cases hfound : poll capacity log r.next with
    | value msg =>
      simp only [hfound, Option.some.injEq] at ht
      subst ht
      cases written with
      | true => exact ⟨r.take msg, rfl, by simp [hsent, Receiver.take], hfollows.take hlive hfound⟩
      | false => exact ⟨r, rfl, hsent, hgone⟩
    | pending | lagged oldest => simp [hfound] at ht
  | lagged =>
    cases hfound : poll capacity log r.next with
    | lagged oldest =>
      simp only [hfound, Option.some.injEq] at ht
      subst ht
      exact ⟨r, rfl, hsent, hgone⟩
    | pending | value msg => simp [hfound] at ht

namespace Feed

theorem log_broadcast (feed : Feed) (now : SystemTime) (addr : Text) (parts : List Bytes) :
    feed.broadcast printSecs now addr parts =
      { feed with
        log := feed.log ++ ((FeedEvent.request now addr parts).line? printSecs).toList } := by
  rw [show (FeedEvent.request now addr parts).line? printSecs =
    (audit printSecs now addr parts).bind Prod.snd from rfl, broadcast]
  rcases audit printSecs now addr parts with _ | ⟨summary, line⟩
  · simp
  · rfl

theorem step_turn {i : Nat} {e : Relay} : feed.step printSecs capacity (.turn i e) = some feed' ↔
    ∃ m, feed.monitors[i]? = some m ∧ ∃ m', m.turn capacity feed.log e = some m' ∧
      { feed with monitors := feed.monitors.set i m' } = feed' := by
  simp [step, Option.bind_eq_some_iff]

def Shown (feed : Feed) (i : Nat) (lines : List Text) : Prop :=
  ∃ m, feed.monitors[i]? = some m ∧ m.Shows feed.log lines

theorem shown_step {i : Nat} {lines : List Text} (h : feed.Shown i lines)
    (hs : feed.step printSecs capacity e = some feed') :
    feed'.Shown i (lines ++ (e.line? printSecs).toList) := by
  obtain ⟨m, hget, hshows⟩ := h
  cases e with
  | enter written =>
    cases hs
    change Shown _ i (lines ++ [])
    rw [List.append_nil]
    exact ⟨m, (List.getElem?_append_left (List.getElem?_eq_some_iff.mp hget).1).trans hget, hshows⟩
  | request now addr parts =>
    cases hs
    rw [log_broadcast]
    obtain ⟨r, hr, hsent, hfollows⟩ := hshows
    refine ⟨m, hget, r, hr, hsent, ?_⟩
    cases (FeedEvent.request now addr parts).line? printSecs with
    | none => simpa using hfollows
    | some line => exact hfollows.send line
  | turn j e =>
    change Shown _ i (lines ++ [])
    rw [List.append_nil]
    obtain ⟨m₂, hget₂, m', ht, rfl⟩ := step_turn.mp hs
    by_cases hij : j = i
    · subst hij
      obtain rfl := Option.some.inj (hget.symm.trans hget₂)
      exact ⟨m', List.getElem?_set_self (List.getElem?_eq_some_iff.mp hget).1, shows_turn hshows ht⟩
    · exact ⟨m, (List.getElem?_set_ne hij).trans hget, hshows⟩

theorem shown_run {i : Nat} {es : List FeedEvent} (h : feed.Shown i [])
    (hrun : run (step printSecs capacity) feed es = some feed') :
    feed'.Shown i (broadcastLines printSecs es) := by
  induction es using List.reverseRecOn generalizing feed' with
  | nil =>
    obtain rfl := Option.some.inj hrun
    exact h
  | append_singleton es e ih =>
    rw [run_append] at hrun
    obtain ⟨t, ht, hlast⟩ := Option.bind_eq_some_iff.mp hrun
    rw [run_cons, Option.bind_eq_some_iff] at hlast
    obtain ⟨t', hs, hend⟩ := hlast
    obtain rfl := Option.some.inj hend
    have hlines : broadcastLines printSecs (es ++ [e]) = broadcastLines printSecs es ++
        (e.line? printSecs).toList := by
      rw [broadcastLines, List.filterMap_append]
      cases h : e.line? printSecs <;> simp [h, broadcastLines]
    rw [hlines]
    exact shown_step (ih ht) hs

/-- A monitor that has not joined was only told OK. -/
def Greeted (feed : Feed) : Prop :=
  ∀ m ∈ feed.monitors, m.receiver = none → m.hasLeft = false → m.sent = [lit "+OK\r\n"]

theorem turn_joined {log : List Text} {m m' : Monitor} {e : Relay}
    (ht : m.turn capacity log e = some m') :
    m'.receiver ≠ none := by
  obtain ⟨-, ht⟩ := Option.ite_none_left_eq_some.mp ht
  cases hr : m.receiver with
  | none =>
    rw [hr] at ht
    cases e with
    | subscribe =>
      obtain rfl := Option.some.inj ht
      exact nofun
    | recv written | lagged => cases ht
  | some r =>
    rw [hr] at ht
    cases e with
    | subscribe => cases ht
    | recv written =>
      cases hfound : poll capacity log r.next <;> simp only [hfound] at ht <;> cases ht
      cases written <;> simp
    | lagged =>
      cases hfound : poll capacity log r.next <;> simp only [hfound] at ht <;> cases ht
      simp

theorem greeted_step (h : feed.Greeted) (hs : feed.step printSecs capacity e = some feed') :
    feed'.Greeted := by
  cases e with
  | enter written =>
    cases hs
    refine List.forall_mem_append.mpr ⟨h, List.forall_mem_singleton.mpr fun _ hlive => ?_⟩
    cases written with
    | true => rfl
    | false => cases hlive
  | request now addr parts =>
    cases hs
    rw [log_broadcast]
    exact h
  | turn i e =>
    obtain ⟨m, -, m', ht, rfl⟩ := step_turn.mp hs
    intro n hmem hnone
    rcases List.mem_or_eq_of_mem_set hmem with hold | rfl
    · exact h n hold hnone
    · exact absurd hnone (turn_joined ht)

theorem shown_subscribe {i : Nat} (h : feed.Greeted)
    (hs : feed.step printSecs capacity (.turn i .subscribe) = some feed') :
    feed'.Shown i [] := by
  obtain ⟨m, hget, m', ht, rfl⟩ := step_turn.mp hs
  refine ⟨m', List.getElem?_set_self (List.getElem?_eq_some_iff.mp hget).1, ?_⟩
  obtain ⟨hleft, ht⟩ := Option.ite_none_left_eq_some.mp ht
  cases hr : m.receiver with
  | some r =>
    rw [hr] at ht
    cases ht
  | none =>
    rw [hr] at ht
    obtain rfl := Option.some.inj ht
    have hsent := h m (List.mem_of_getElem? hget) hr (Bool.eq_false_iff.mpr hleft)
    exact ⟨_, rfl, hsent, Receiver.follows_join _ _⟩

/-- A connection joins the broadcast, in any state a run has come to, and anything
follows: it was sent OK and the first of the lines broadcast since it joined, none left
out, and the rest are what it has yet to read, unless its loop has left. -/
theorem monitored {i : Nat} {es fs : List FeedEvent} {joined : Feed}
    (hrun : run (step printSecs capacity) new es = some feed)
    (hjoin : feed.step printSecs capacity (.turn i .subscribe) = some joined)
    (hrest : run (step printSecs capacity) joined fs = some feed') :
    ∃ m r rest, feed'.monitors[i]? = some m ∧ m.receiver = some r ∧
      broadcastLines printSecs fs = r.got ++ rest ∧
      m.sent = lit "+OK\r\n" :: r.got.map monitorMessage ∧
      (m.hasLeft = false → rest = feed'.log.drop r.next) := by
  have hgreeted : feed.Greeted :=
    (Reachable.init.run es hrun).inv (fun _ hmem => absurd hmem List.not_mem_nil)
      fun _ _ _ h _ hs => greeted_step h hs
  obtain ⟨m, hget, r, hr, hsent, hfollows⟩ := shown_run (shown_subscribe hgreeted hjoin) hrest
  obtain ⟨rest, hall⟩ := hfollows.got
  exact ⟨m, r, rest, hget, hr, hall.symm, hsent,
    fun hlive => List.append_cancel_left (hall.trans (hfollows.unread hlive))⟩

/-- A monitor that joins after one request, and is shown the first of two others. -/
theorem monitored_late : ∃ feed joined feed', run (step (fun n => Decimal.printInt n) 1024) new
      [.enter true, .request .unixEpoch "1.2.3.4:5".toList [lit "PING"]] = some feed ∧
    feed.step (fun n => Decimal.printInt n) 1024 (.turn 0 .subscribe) = some joined ∧
    run (step (fun n => Decimal.printInt n) 1024) joined
      [.request .unixEpoch "1.2.3.4:5".toList [lit "GET", lit "k"],
        .request .unixEpoch "1.2.3.4:6".toList [lit "DBSIZE"], .turn 0 (.recv true)] = some feed' ∧
    ∃ m r rest, feed'.monitors[0]? = some m ∧ m.receiver = some r ∧
      broadcastLines (fun n => Decimal.printInt n)
        [.request .unixEpoch "1.2.3.4:5".toList [lit "GET", lit "k"],
          .request .unixEpoch "1.2.3.4:6".toList [lit "DBSIZE"],
          .turn 0 (.recv true)] = r.got ++ rest ∧
      m.sent = lit "+OK\r\n" :: r.got.map monitorMessage ∧
        (m.hasLeft = false → rest = feed'.log.drop r.next) := by
  have hsome : (run (step (fun n => Decimal.printInt n) 1024) new
      [.enter true, .request .unixEpoch "1.2.3.4:5".toList [lit "PING"], .turn 0 .subscribe,
        .request .unixEpoch "1.2.3.4:5".toList [lit "GET", lit "k"],
          .request .unixEpoch "1.2.3.4:6".toList [lit "DBSIZE"],
        .turn 0 (.recv true)]).isSome := by decide +kernel
  obtain ⟨feed', hrun⟩ := Option.isSome_iff_exists.mp hsome
  obtain ⟨feed, hfirst, hrun⟩ :=
    Option.bind_eq_some_iff.mp ((run_append _ [_, _] _).symm.trans hrun)
  obtain ⟨joined, hjoin, hrest⟩ := Option.bind_eq_some_iff.mp hrun
  exact ⟨feed, joined, feed', hfirst, hjoin, hrest, monitored hfirst hjoin hrest⟩

end Feed

end Contiguous

section Framing
open Resp

variable {printSecs : Nat → Text} {now : SystemTime} {addr line : Text} {parts : List Bytes}

theorem oneLine_quoted (s : Text) : OneLine (encode (quoted s)) ↔ OneLine (encode s) := by
  have hquote : encode ['"'] = [34] := by decide
  rw [show quoted s = ['"'] ++ (s ++ ['"']) from rfl, encode_append, encode_append, hquote,
    List.singleton_append, oneLine_cons (by decide), oneLine_append (by decide)]
  exact and_iff_left (.singleton _)

theorem head?_quoted (s t : Text) : (encode (quoted s ++ t)).head? = some 34 := by
  rw [show quoted s ++ t = ['"'] ++ (s ++ ['"'] ++ t) from rfl, encode_append]
  rfl

theorem oneLine_arguments :
    OneLine (encode (List.intercalate [' '] (parts.map fun p => quoted (bytesToStr p)))) ↔
    ∀ part ∈ parts, OneLine (encode (bytesToStr part)) := by
  induction parts with
  | nil => exact iff_of_true .nil (by simp)
  | cons part parts ih =>
    rw [List.forall_mem_cons, ← ih, List.map_cons, ← oneLine_quoted (bytesToStr part)]
    cases parts with
    | nil =>
      rw [List.map_nil, List.intercalate_singleton]
      exact (and_iff_left (show OneLine [] from .nil)).symm
    | cons next parts =>
      rw [List.map_cons, List.intercalate_cons_cons, encode_append, encode_append,
        List.append_assoc,
        show encode [' '] =
          [32] by decide, List.singleton_append, oneLine_append (by simp), oneLine_cons (by decide)]

/-- The line of a request is one exactly if each argument is. -/
theorem oneLine_monitorLine (hsecs : ∀ n, OneLine (encode (printSecs n)))
    (haddr : OneLine (encode addr)) (h : monitorLine printSecs now addr parts = some line) :
    OneLine (encode line) ↔ ∀ part ∈ parts, OneLine (encode (bytesToStr part)) := by
  rw [← oneLine_arguments]
  cases parts with
  | nil => cases h
  | cons first parts =>
    obtain ⟨-, h⟩ := Option.ite_none_left_eq_some.mp h
    obtain ⟨elapsed, -, rfl⟩ := Option.map_eq_some_iff.mp h
    have harguments :
        (encode (List.intercalate [' ']
          ((first :: parts).map fun p => quoted (bytesToStr p)))).head? ≠ some 10 := by
      cases parts with
      | nil =>
        rw [List.map_cons, List.map_nil, List.intercalate_singleton, ← List.append_nil (quoted _),
          head?_quoted]
        decide
      | cons next parts =>
        rw [List.map_cons, List.map_cons, List.intercalate_cons_cons, List.append_assoc,
          head?_quoted]
        decide
    rw [encode_append, oneLine_append harguments]
    refine and_iff_right ?_
    rw [encode_append, encode_append, encode_append, List.append_assoc, List.append_assoc,
      show encode " [0 ".toList = [32, 91, 48, 32] by decide, oneLine_append (by simp)]
    refine ⟨hsecs elapsed, ?_⟩
    simp only [List.cons_append, List.nil_append]
    rw [oneLine_cons (by decide), oneLine_cons (by decide), oneLine_cons (by decide),
      oneLine_cons (by decide), oneLine_append (by decide)]
    exact ⟨haddr, by decide⟩

/-- What the client of a monitoring connection reads: OK and each request broadcast since,
exactly if no argument of these has a CRLF in its text. -/
theorem monitor_reads_iff {fs : List FeedEvent} (hsecs : ∀ n, OneLine (encode (printSecs n)))
    (haddr : ∀ now addr parts, FeedEvent.request now addr parts ∈ fs → OneLine (encode addr)) :
    decodeAll (lit "+OK\r\n" ++ (broadcastLines printSecs fs).flatMap monitorMessage) =
        .simple (lit "OK") :: (broadcastLines printSecs fs).map
          (fun line => .simple (encode line)) ↔
      ∀ e ∈ fs, (e.line? printSecs).isSome →
        ∀ part ∈ e.parts, OneLine (encode (bytesToStr part)) := by
  have hstream : lit "+OK\r\n" ++ (broadcastLines printSecs fs).flatMap monitorMessage =
      (lit "OK" :: (broadcastLines printSecs fs).map encode).flatMap (frame 43) := by
    rw [List.flatMap_cons, List.flatMap_map]
    rfl
  rw [hstream,
    show (.simple (lit "OK") :: (broadcastLines printSecs fs).map fun line =>
      .simple (encode line)) =
        (lit "OK" :: (broadcastLines printSecs fs).map encode).map Value.simple by simp,
    decodeAll_frames_iff, List.forall_mem_cons,
    and_iff_right (show OneLine (lit "OK") by decide), List.forall_mem_map]
  have hevent : ∀ e ∈ fs, ∀ line, e.line? printSecs = some line →
      (OneLine (encode line) ↔ ∀ part ∈ e.parts, OneLine (encode (bytesToStr part))) := by
    intro e hmem line hline
    cases e with
    | enter written | turn i e => cases hline
    | request now addr parts =>
      obtain ⟨⟨summary, line?⟩, haudit, rfl⟩ := Option.bind_eq_some_iff.mp hline
      obtain ⟨summary', -, hpair⟩ := Option.map_eq_some_iff.mp haudit
      exact oneLine_monitorLine hsecs (haddr now addr parts hmem) (Prod.mk.inj hpair).2
  constructor
  · intro h e hmem hsome
    obtain ⟨line, hline⟩ := Option.isSome_iff_exists.mp hsome
    exact (hevent e hmem line hline).mp (h line (List.mem_filterMap.mpr ⟨e, hmem, hline⟩))
  · intro h line hmem
    obtain ⟨e, he, hline⟩ := List.mem_filterMap.mp hmem
    exact (hevent e he line hline).mpr (h e he (by rw [hline]; rfl))

/-- A value with a CRLF in it, shown to a monitor. -/
theorem monitor_reads_iff_forged :
    decodeAll (lit "+OK\r\n" ++ (broadcastLines (fun n => Decimal.printInt n)
        [.request .unixEpoch "1.2.3.4:5".toList [lit "SET", lit "k", lit "v\r\n+forged"]]).flatMap
          monitorMessage) =
      .simple (lit "OK") :: (broadcastLines (fun n => Decimal.printInt n)
        [.request .unixEpoch "1.2.3.4:5".toList [lit "SET", lit "k", lit "v\r\n+forged"]]).map
          (fun line => .simple (encode line)) ↔
    ∀ e ∈ [FeedEvent.request .unixEpoch "1.2.3.4:5".toList
        [lit "SET", lit "k", lit "v\r\n+forged"]],
      (e.line? fun n => Decimal.printInt n).isSome →
        ∀ part ∈ e.parts, OneLine (encode (bytesToStr part)) :=
  monitor_reads_iff (fun n => oneLine_of_notMem (carriageReturn_notMem_number n))
    fun now addr parts hmem => by
      obtain ⟨-, rfl, -⟩ := FeedEvent.request.inj (List.mem_singleton.mp hmem)
      decide

end Framing

end TitanKv
