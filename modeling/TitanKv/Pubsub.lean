import TitanKv.Lib.Broadcast
import TitanKv.Subscriber

/-! # Channels and their subscribers

The channel table, PUBLISH, and all connections in subscriber mode. The table and the
messages are text: a channel name or a message that is no UTF-8 is the empty string
there, so that two such names are the same channel and such a message arrives empty. -/

namespace TitanKv
open Utf8 Runs Broadcast

section Hub

/-- A PUBLISH as the client sent it. What goes to the subscribers is its message's text. -/
structure Post where
  channel : Bytes
  message : Bytes
  deriving DecidableEq

structure Subscriber where
  listener : Listener
  receiver : Receiver Post
  deriving DecidableEq

/-- The name its channel has in the table. -/
def Subscriber.name (s : Subscriber) : Text := bytesToStr s.listener.channel

/-- The table, with all that was ever sent on each channel, and every connection that
has subscribed. -/
structure Hub where
  channels : AList fun _ : Text => List Post
  subscribers : List Subscriber

inductive HubEvent where
  | subscribe (channel leftover : Bytes)
  | publish (post : Post)
  | turn (i : Nat) (e : Select)
  deriving DecidableEq

namespace Hub

def new : Hub := ⟨∅, []⟩

def log (hub : Hub) (name : Text) : List Post := (hub.channels.lookup name).getD []

/-- The receivers of a channel: those whose loop has not left. -/
def receivers (hub : Hub) (name : Text) : Nat :=
  hub.subscribers.countP fun s => !s.listener.hasLeft && s.name = name

def handleSubscribe (hub : Hub) (channel leftover : Bytes) : Hub where
  channels := match hub.channels.lookup (bytesToStr channel) with
    | some _ => hub.channels
    | none => hub.channels.insert (bytesToStr channel) []
  subscribers :=
    hub.subscribers ++ [⟨.subscribed channel leftover, join (hub.log (bytesToStr channel))⟩]

/-- The reply and the new state; a message that nobody would get is not kept. -/
def handlePublish (hub : Hub) (post : Post) : Bytes × Hub :=
  match hub.channels.lookup (bytesToStr post.channel) with
  | some log =>
    if hub.receivers (bytesToStr post.channel) = 0 then (integerReply 0, hub)
    else (integerReply (hub.receivers (bytesToStr post.channel)),
      { hub with channels := hub.channels.insert (bytesToStr post.channel) (log ++ [post]) })
  | none => (lit ":0\r\n", hub)

end Hub

/-- What `recv` makes of the receiver; other events leave it alone. -/
def advance (r : Receiver Post) (found : Poll Post) : Select → Option (Receiver Post)
  | .recv msg written => match found with
    | .value post =>
      if bytesToStr post.message = msg then some (if written then r.take post else r) else none
    | _ => none
  | .lagged => match found with
    | .lagged oldest => some (r.skip oldest)
    | _ => none
  | _ => some r

variable (toUppercase : Char → Text) (capacity : Nat)

def Subscriber.turn (log : List Post) (s : Subscriber) (e : Select) : Option Subscriber :=
  (advance s.receiver (poll capacity log s.receiver.next) e).bind fun receiver =>
    (s.listener.step toUppercase e).map fun listener => ⟨listener, receiver⟩

def Hub.step (hub : Hub) : HubEvent → Option Hub
  | .subscribe channel leftover => some (hub.handleSubscribe channel leftover)
  | .publish post => some (hub.handlePublish post).2
  | .turn i e => (hub.subscribers[i]?).bind fun s =>
    (s.turn toUppercase capacity (hub.log s.name) e).map fun s' =>
      { hub with subscribers := hub.subscribers.set i s' }

end Hub

section Isolation

/-- The message in a push, as the client reads it. -/
def readMessage (push : Bytes) : Option Bytes :=
  match Resp.decode push with
  | some (.array [.bulk kind, .bulk _, .bulk message], []) =>
    if kind = lit "message" then some message else none
  | _ => none

def Listener.messages (l : Listener) : List Bytes := l.sent.filterMap readMessage

/-- Each message a subscriber was sent is one that was published, and on its channel. -/
def Subscriber.Isolated (s : Subscriber) : Prop :=
  s.listener.messages = s.receiver.got.map Post.message ∧
    ∀ post ∈ s.receiver.got, post.channel = s.listener.channel

def Hub.Isolated (hub : Hub) : Prop := ∀ s ∈ hub.subscribers, s.Isolated

/-- The post is for the channel and a text. -/
def Post.Meant (channel : Bytes) (post : Post) : Prop :=
  post.channel = channel ∧ (decode? post.message).isSome

/-- A PUBLISH whose message is meant for all who will get it. -/
def Hub.Clean (hub : Hub) : HubEvent → Prop
  | .publish post => ∀ s ∈ hub.subscribers, s.listener.hasLeft = false →
      s.name = bytesToStr post.channel → post.Meant s.listener.channel
  | _ => True

/-- A turn in which a subscriber takes what the channel has for it. -/
def HubEvent.IsDelivery : HubEvent → Prop
  | .turn _ (.recv _ _) | .turn _ .lagged => True
  | _ => False

end Isolation

section Push
variable (channel : Bytes) (msg : Text)

/-- What the loop sends is an array of three. -/
theorem encode_three (head : String) {kind : Bytes} (h : lit head = arrayHeader 3 ++ writeBulk kind)
    (name : Bytes) (v : Resp.Value) :
    lit head ++ writeBulk name ++ v.encode =
      Resp.Value.encode (.array [.bulk kind, .bulk name, v]) := by
  rw [h, arrayHeader_eq, writeBulk_eq, writeBulk_eq]
  simp only [Resp.Value.encode, Resp.Value.encodeAll, List.append_assoc, List.append_nil]
  rfl

theorem messagePush_eq : messagePush channel msg =
    Resp.Value.encode
      (.array [.bulk (lit "message"), .bulk (encode (bytesToStr channel)),
        .bulk (encode msg)]) := by
  rw [messagePush, writeBulk_eq (encode msg)]
  exact encode_three _ (by decide) _ _

theorem subscribeAck_eq : subscribeAck channel =
    Resp.Value.encode (.array [.bulk (lit "subscribe"), .bulk (encode (bytesToStr channel)),
      .integer 1]) :=
  encode_three "*3\r\n$9\r\nsubscribe\r\n" (by decide) _ (.integer 1)

theorem unsubscribeAck_eq : unsubscribeAck channel =
    Resp.Value.encode (.array [.bulk (lit "unsubscribe"), .bulk (encode (bytesToStr channel)),
      .integer 0]) :=
  encode_three "*3\r\n$11\r\nunsubscribe\r\n" (by decide) _ (.integer 0)

theorem readMessage_three {kind name : Bytes} {v : Resp.Value} (hv : v.Sound) :
    readMessage (Resp.Value.encode (.array [.bulk kind, .bulk name, v])) = match v with
      | .bulk message => if kind = lit "message" then some message else none
      | _ => none := by
  have hsound : (Resp.Value.array [.bulk kind, .bulk name, v]).Sound :=
    ⟨trivial, trivial, hv, trivial⟩
  have hdec := Resp.decode_encode hsound []
  rw [List.append_nil] at hdec
  rw [readMessage, hdec]
  cases v <;> rfl

@[simp] theorem readMessage_push : readMessage (messagePush channel msg) = some (encode msg) := by
  rw [messagePush_eq, readMessage_three (v := .bulk (encode msg)) trivial]
  exact if_pos rfl

@[simp] theorem readMessage_subscribeAck : readMessage (subscribeAck channel) = none := by
  rw [subscribeAck_eq, readMessage_three (v := .integer 1) trivial]

@[simp] theorem readMessage_unsubscribeAck : readMessage (unsubscribeAck channel) = none := by
  rw [unsubscribeAck_eq, readMessage_three (v := .integer 0) trivial]

end Push

section Turns
variable {toUppercase : Char → Text} {capacity : Nat} {log : List Post} {s s' : Subscriber}
  {e : Select}

theorem messages_step {l l' : Listener} (h : l.step toUppercase e = some l') :
    l'.messages = l.messages ++ (Listener.pushes l.channel e).filterMap readMessage := by
  obtain ⟨-, acks, hsent, hacks⟩ := Listener.sent_step h
  rw [Listener.messages, Listener.messages, hsent, List.filterMap_append, List.filterMap_append]
  rcases hacks with rfl | rfl <;> simp

/-- A turn reads the next value and sends it, or is told of a lag, or has nothing to
do with the channel. -/
theorem advance_cases {r r' : Receiver Post} {found : Poll Post} (h : advance r found e = some r') :
    (∃ post, e = .recv (bytesToStr post.message) true ∧ found = .value post ∧ r' = r.take post) ∨
    (∃ oldest, e = .lagged ∧ found = .lagged oldest ∧ r' = r.skip oldest) ∨
    (∀ channel, Listener.pushes channel e = []) ∧ r' = r := by
  cases e with
  | recv msg written =>
    cases found with
    | value post =>
      obtain ⟨rfl, hr⟩ := Option.ite_none_right_eq_some.mp h
      cases written with
      | true => exact Or.inl ⟨post, rfl, rfl, (Option.some.inj hr).symm⟩
      | false => exact Or.inr (Or.inr ⟨fun _ => rfl, (Option.some.inj hr).symm⟩)
    | pending | lagged oldest => cases h
  | lagged =>
    cases found with
    | lagged oldest => exact Or.inr (Or.inl ⟨oldest, rfl, rfl, (Option.some.inj h).symm⟩)
    | pending | value post => cases h
  | segment bytes | shutdown | failure | readLine | readError =>
    exact Or.inr (Or.inr ⟨fun _ => rfl, (Option.some.inj h).symm⟩)

theorem turn_eq_some : s.turn toUppercase capacity log e = some s' ↔
    advance s.receiver (poll capacity log s.receiver.next) e = some s'.receiver ∧
      s.listener.step toUppercase e = some s'.listener := by
  obtain ⟨listener', receiver'⟩ := s'
  simp [Subscriber.turn, Option.bind_eq_some_iff]

/-- A subscriber was sent the texts of the values it got, in the order of the channel. -/
structure Subscriber.Sound (log : List Post) (s : Subscriber) : Prop where
  receiver : s.receiver.Sound log
  messages : s.listener.messages = s.receiver.got.map fun post => encode (bytesToStr post.message)

theorem sound_turn (h : s.Sound log) (ht : s.turn toUppercase capacity log e = some s') :
    s'.Sound log := by
  obtain ⟨hr, hl⟩ := turn_eq_some.mp ht
  have hm := messages_step hl
  rw [h.messages] at hm
  rcases advance_cases hr with ⟨post, rfl, hfound, hr'⟩ | ⟨oldest, rfl, hfound, hr'⟩ | ⟨hquiet, hr'⟩
  · refine ⟨hr' ▸ h.receiver.take hfound, ?_⟩
    rw [hm, hr']
    simp [Listener.pushes, Receiver.take]
  · refine ⟨hr' ▸ h.receiver.skip hfound, ?_⟩
    rw [hm, hr']
    simp [Listener.pushes, Receiver.skip]
  · refine ⟨hr' ▸ h.receiver, ?_⟩
    rw [hm, hr', hquiet]
    simp

theorem channel_turn (ht : s.turn toUppercase capacity log e = some s') :
    s'.listener.channel = s.listener.channel := (Listener.sent_step (turn_eq_some.mp ht).2).1

/-- The loop came to where it is by a run of its own. -/
def Subscriber.FromLoop (toUppercase : Char → Text) (s : Subscriber) : Prop :=
  ∃ leftover fs, run (Listener.step toUppercase) (.subscribed s.listener.channel leftover) fs =
    some s.listener

end Turns

namespace Hub
variable {toUppercase : Char → Text} {capacity : Nat} {hub hub' : Hub} {e : HubEvent} {name : Text}

section Steps

theorem log_insert (hub : Hub) (name name' : Text) (log : List Post) :
    Hub.log { hub with channels := hub.channels.insert name' log } name =
      if name = name' then log else hub.log name := by
  split
  · rename_i hname
    subst hname
    rw [Hub.log, AList.lookup_insert, Option.getD_some]
  · rename_i hname
    rw [Hub.log, Hub.log, AList.lookup_insert_ne hname]

theorem log_handleSubscribe (channel leftover : Bytes) :
    (hub.handleSubscribe channel leftover).log name = hub.log name := by
  cases hl : hub.channels.lookup (bytesToStr channel) with
  | some log => simp [Hub.log, handleSubscribe, hl]
  | none =>
    have hlog := log_insert hub name (bytesToStr channel) []
    have hempty : name = bytesToStr channel → hub.log name = [] := fun hname => by
      rw [Hub.log, hname, hl, Option.getD_none]
    rw [show (hub.handleSubscribe channel leftover).log name =
      _ by simp only [handleSubscribe, hl]; exact hlog]
    split
    · rename_i hname
      exact (hempty hname).symm
    · rfl

/-- A PUBLISH adds to its channel's log, or nobody is there to receive it. -/
theorem handlePublish_cases (hub : Hub) (post : Post) :
    ((hub.handlePublish post).2 = hub ∧
      (hub.channels.lookup (bytesToStr post.channel) = none ∨
        hub.receivers (bytesToStr post.channel) = 0)) ∨
    (hub.handlePublish post).2 =
      { hub with channels := hub.channels.insert (bytesToStr post.channel)
                               (hub.log (bytesToStr post.channel) ++ [post]) } := by
  cases hl : hub.channels.lookup (bytesToStr post.channel) with
  | none => exact Or.inl ⟨by simp [handlePublish, hl], Or.inl rfl⟩
  | some sent =>
    by_cases hr : hub.receivers (bytesToStr post.channel) = 0
    · exact Or.inl ⟨by simp [handlePublish, hl, hr], Or.inr hr⟩
    · exact Or.inr (by simp [handlePublish, hl, hr, log])

theorem step_turn {i : Nat} {e : Select} : hub.step toUppercase capacity (.turn i e) = some hub' ↔
    ∃ s, hub.subscribers[i]? = some s ∧
      ∃ s', s.turn toUppercase capacity (hub.log s.name) e = some s' ∧
        { hub with subscribers := hub.subscribers.set i s' } = hub' := by
  simp [step, Option.bind_eq_some_iff]

/-- The rule for what holds of every subscriber and its channel: it holds at the
start, and is kept by what is sent on the channel and by the subscriber's own turns. -/
theorem forall_step {P : List Post → Subscriber → Prop}
    (h : ∀ s ∈ hub.subscribers, P (hub.log s.name) s)
    (hjoin : ∀ channel leftover log, P log ⟨.subscribed channel leftover, join log⟩)
    (hsend : ∀ post, e = .publish post → ∀ s ∈ hub.subscribers, s.name = bytesToStr post.channel →
      P (hub.log s.name) s → P (hub.log s.name ++ [post]) s)
    (hturn : ∀ s s' e' log, s.turn toUppercase capacity log e' = some s' → P log s → P log s')
    (hs : hub.step toUppercase capacity e = some hub') :
    ∀ s ∈ hub'.subscribers, P (hub'.log s.name) s := by
  cases e with
  | subscribe channel leftover =>
    cases hs
    refine List.forall_mem_append.mpr ⟨fun s hmem => ?_, List.forall_mem_singleton.mpr ?_⟩
    · rw [log_handleSubscribe]
      exact h s hmem
    · rw [log_handleSubscribe]
      exact hjoin channel leftover _
  | publish post =>
    cases hs
    rcases handlePublish_cases hub post with ⟨heq, -⟩ | heq
    · rw [heq]
      exact h
    · rw [heq]
      intro s hmem
      rw [log_insert]
      split
      · rename_i hname
        rw [← hname]
        exact hsend post rfl s hmem hname (h s hmem)
      · exact h s hmem
  | turn i e =>
    obtain ⟨s, hget, s', ht, rfl⟩ := step_turn.mp hs
    intro t hmem
    rcases List.mem_or_eq_of_mem_set hmem with hold | rfl
    · exact h t hold
    · have hname : t.name = s.name := congrArg bytesToStr (channel_turn ht)
      rw [hname]
      exact hturn s t e _ ht (h s (List.mem_of_getElem? hget))

def Sound (hub : Hub) : Prop := ∀ s ∈ hub.subscribers, s.Sound (hub.log s.name)

theorem sound_new : Sound new := fun _ hmem => absurd hmem List.not_mem_nil

theorem sound_step (h : hub.Sound) (hs : hub.step toUppercase capacity e = some hub') :
    hub'.Sound := by
  refine forall_step h (fun channel leftover log => ?_) (fun post _ s _ _ hsound => ?_)
    (fun s s' e' log ht hsound => sound_turn hsound ht) hs
  · exact ⟨Receiver.sound_join log, by simp [Listener.messages, Listener.subscribed, join]⟩
  · exact ⟨hsound.receiver.send post, hsound.messages⟩

/-- Every channel that has a subscriber is in the table. -/
def Tabled (hub : Hub) : Prop := ∀ s ∈ hub.subscribers, s.name ∈ hub.channels

theorem tabled_handleSubscribe (h : hub.Tabled) (channel leftover : Bytes) :
    (hub.handleSubscribe channel leftover).Tabled := by
  unfold Tabled handleSubscribe
  cases hl : hub.channels.lookup (bytesToStr channel) with
  | some log =>
    refine List.forall_mem_append.mpr ⟨h, List.forall_mem_singleton.mpr ?_⟩
    exact AList.lookup_isSome.mp (by rw [Subscriber.name, Listener.subscribed, hl]; rfl)
  | none =>
    refine List.forall_mem_append.mpr ⟨fun s hmem => ?_, List.forall_mem_singleton.mpr ?_⟩
    · exact (AList.mem_insert _).mpr (Or.inr (h s hmem))
    · exact (AList.mem_insert _).mpr (Or.inl rfl)

theorem tabled_step (h : hub.Tabled) (hs : hub.step toUppercase capacity e = some hub') :
    hub'.Tabled := by
  cases e with
  | subscribe channel leftover =>
    cases hs
    exact tabled_handleSubscribe h channel leftover
  | publish post =>
    cases hs
    rcases handlePublish_cases hub post with ⟨heq, -⟩ | heq
    · rw [heq]
      exact h
    · rw [heq]
      exact fun s hmem => (AList.mem_insert _).mpr (Or.inr (h s hmem))
  | turn i e =>
    obtain ⟨s, hget, s', ht, rfl⟩ := step_turn.mp hs
    intro t hmem
    rcases List.mem_or_eq_of_mem_set hmem with hold | rfl
    · exact h t hold
    · have hname : t.name = s.name := congrArg bytesToStr (channel_turn ht)
      rw [hname]
      exact h s (List.mem_of_getElem? hget)

/-- The reply counts the connections that will get the message. -/
theorem handlePublish_reply (h : hub.Tabled) (post : Post) :
    (hub.handlePublish post).1 = publishReply (hub.receivers ·) post.channel := by
  unfold handlePublish publishReply
  cases hl : hub.channels.lookup (bytesToStr post.channel) with
  | some log =>
    dsimp only
    split
    · rename_i hr
      rw [hr]
      rfl
    · rfl
  | none =>
    have hr : hub.receivers (bytesToStr post.channel) = 0 := by
      refine List.countP_eq_zero.mpr fun s hmem hs => ?_
      have hname : s.name = bytesToStr post.channel := by
        simp only [Bool.and_eq_true, decide_eq_true_eq] at hs
        exact hs.2
      exact AList.lookup_eq_none.mp hl (hname ▸ h s hmem)
    dsimp only
    rw [hr]
    decide

/-- What a subscriber gets is in the order of its channel, each value at most once. -/
theorem got_sublist (h : hub.Sound) {s : Subscriber} (hmem : s ∈ hub.subscribers) :
    s.receiver.got.Sublist ((hub.log s.name).drop s.receiver.start) :=
  (h s hmem).receiver.got.trans ((List.take_sublist _ _).drop _)

def FromLoops (toUppercase : Char → Text) (hub : Hub) : Prop :=
  ∀ s ∈ hub.subscribers, s.FromLoop toUppercase

/-- Every loop among the others makes one of the runs of a single loop. -/
theorem fromLoops_run {es : List HubEvent}
    (hrun : run (step toUppercase capacity) new es = some hub) :
    hub.FromLoops toUppercase := by
  refine (Reachable.init.run es hrun).inv (fun _ hmem => absurd hmem List.not_mem_nil)
    fun _ _ _ h _ hs => ?_
  refine forall_step (P := fun _ s => s.FromLoop toUppercase) h
    (fun channel leftover _ => ⟨leftover, [], rfl⟩)
    (fun _ _ _ _ _ hfrom => hfrom) (fun s s' e' log ht hfrom => ?_) hs
  obtain ⟨leftover, fs, hfs⟩ := hfrom
  refine ⟨leftover, fs ++ [e'], ?_⟩
  rw [channel_turn ht, run_append, hfs, Option.bind_some, run_cons, (turn_eq_some.mp ht).2]
  rfl

end Steps

end Hub

section Meant
variable {toUppercase : Char → Text} {capacity : Nat} {log : List Post} {s s' : Subscriber}
  {e : Select}

theorem encode_bytesToStr_eq_iff {b : Bytes} : encode (bytesToStr b) = b ↔ (decode? b).isSome := by
  cases hb : decode? b with
  | none =>
    refine iff_of_false (fun h => ?_) (by decide)
    rw [bytesToStr, hb, Option.getD_none] at h
    rw [← h, decode?_encode] at hb
    cases hb
  | some t => exact iff_of_true (by rw [bytesToStr, hb, Option.getD_some, encode_of_decode? hb]) rfl

/-- Two names are one channel only where neither has any text. -/
theorem bytesToStr_eq_iff {b c : Bytes} :
    bytesToStr b = bytesToStr c ↔ b = c ∨ bytesToStr b = [] ∧ bytesToStr c = [] := by
  constructor
  · intro h
    by_cases hnil : bytesToStr b = []
    · exact Or.inr ⟨hnil, h ▸ hnil⟩
    · have htext {d : Bytes} (hd : bytesToStr d ≠ []) : encode (bytesToStr d) = d := by
        rw [encode_bytesToStr_eq_iff, Option.isSome_iff_ne_none]
        intro hnone
        exact hd (by rw [bytesToStr, hnone, Option.getD_none])
      exact Or.inl (by rw [← htext hnil, h, htext (h ▸ hnil)])
  · rintro (rfl | ⟨hb, hc⟩)
    · rfl
    · rw [hb, hc]

theorem isolated_iff_meant (h : s.Sound log) :
    s.Isolated ↔ ∀ post ∈ s.receiver.got, post.Meant s.listener.channel := by
  rw [Subscriber.Isolated, h.messages, List.map_inj_left]
  simp only [encode_bytesToStr_eq_iff, Post.Meant]
  exact ⟨fun h post hmem => ⟨h.2 post hmem, h.1 post hmem⟩,
    fun h => ⟨fun post hmem => (h post hmem).2, fun post hmem => (h post hmem).1⟩⟩

/-- What the subscriber got was meant for it, and so is what it still will get. -/
structure Subscriber.Served (log : List Post) (s : Subscriber) : Prop where
  got : ∀ post ∈ s.receiver.got, post.Meant s.listener.channel
  unread : s.listener.hasLeft = false → ∀ post ∈ log.drop s.receiver.next,
    post.Meant s.listener.channel

theorem served_turn (h : s.Served log) (ht : s.turn toUppercase capacity log e = some s') :
    s'.Served log := by
  obtain ⟨hr, hl⟩ := turn_eq_some.mp ht
  obtain ⟨hleft, -⟩ := Listener.step_eq_some.mp hl
  have hunread := h.unread hleft
  have hgot := h.got
  rw [← channel_turn ht] at hunread hgot
  obtain ⟨listener', receiver'⟩ := s'
  rcases advance_cases hr with ⟨post, -, hfound, hr'⟩ | ⟨oldest, -, hfound, hr'⟩ | ⟨-, hr'⟩
  · obtain rfl : receiver' = s.receiver.take post := hr'
    rw [unread_of_value hfound] at hunread
    obtain ⟨hpost, hrest⟩ := List.forall_mem_cons.mp hunread
    exact ⟨List.forall_mem_append.mpr ⟨hgot, List.forall_mem_singleton.mpr hpost⟩, fun _ => hrest⟩
  · obtain rfl : receiver' = s.receiver.skip oldest := hr'
    exact ⟨hgot, fun _ post hmem => hunread post ((unread_of_lagged hfound).subset hmem)⟩
  · obtain rfl : receiver' = s.receiver := hr'
    exact ⟨hgot, fun _ => hunread⟩

end Meant

namespace Hub
variable {toUppercase : Char → Text} {capacity : Nat} {hub hub' : Hub} {e : HubEvent}

section Deliveries

/-- A subscriber takes what the channel has for it, and nothing else changes. -/
theorem exists_turn {i : Nat} {s : Subscriber} {e : Select} {listener : Listener}
    {receiver : Receiver Post}
    (hget : hub.subscribers[i]? = some s) (hl : s.listener.step toUppercase e = some listener)
    (hr : advance s.receiver (poll capacity (hub.log s.name) s.receiver.next) e = some receiver) :
    ∃ hub', hub.step toUppercase capacity (.turn i e) = some hub' ∧
      hub'.subscribers[i]? = some ⟨listener, receiver⟩ ∧ ∀ name, hub'.log name = hub.log name := by
  obtain ⟨hi, -⟩ := List.getElem?_eq_some_iff.mp hget
  exact ⟨_, step_turn.mpr ⟨s, hget, ⟨listener, receiver⟩, turn_eq_some.mpr ⟨hr, hl⟩, rfl⟩,
    List.getElem?_set_self hi, fun _ => rfl⟩

theorem exists_read (toUppercase : Char → Text) {i : Nat} {s : Subscriber} {post : Post}
    (hget : hub.subscribers[i]? = some s) (hleft : s.listener.hasLeft = false)
    (hfound : poll capacity (hub.log s.name) s.receiver.next = .value post) :
    ∃ hub' listener,
      hub.step toUppercase capacity (.turn i (.recv (bytesToStr post.message) true)) = some hub' ∧
      hub'.subscribers[i]? = some ⟨listener, s.receiver.take post⟩ ∧
      (∀ name, hub'.log name = hub.log name) ∧
      listener.channel = s.listener.channel ∧ listener.hasLeft = false := by
  have hl : s.listener.step toUppercase (.recv (bytesToStr post.message) true) = some _ :=
    Listener.step_eq_some.mpr ⟨hleft, rfl⟩
  obtain ⟨hub', hs, hget', hlog⟩ := exists_turn hget hl (by rw [hfound]; exact if_pos rfl)
  exact ⟨hub', _, hs, hget', hlog, rfl, hleft⟩

/-- From wherever a subscriber stands at `next` in the log, it can get to the post. -/
def GetsTo (toUppercase : Char → Text) (capacity : Nat) (log : List Post) (post : Post)
    (i next : Nat) : Prop :=
  ∀ (hub : Hub) (s : Subscriber), hub.subscribers[i]? = some s → s.listener.hasLeft = false →
    hub.log s.name = log → s.receiver.next = next →
    ∃ gs t s', (∀ e ∈ gs, HubEvent.IsDelivery e) ∧ run (step toUppercase capacity) hub gs = some t ∧
      t.subscribers[i]? = some s' ∧ s'.listener.channel = s.listener.channel ∧
        post ∈ s'.receiver.got

theorem getsTo_last (toUppercase : Char → Text) (hcap : 0 < capacity) {log : List Post}
    {post : Post}
    (hlast : log.getLast? = some post) {next : Nat} (hlt : next < log.length) (i : Nat) :
    GetsTo toUppercase capacity log post i next := by
  refine read_on hcap (P := GetsTo toUppercase capacity log post i) ?last ?value ?lagged hlt
  case last =>
    intro next a hfound hend hub s hget hleft hlog hnext
    subst hlog hnext
    obtain ⟨t, listener, hs, hget', -, hchannel, -⟩ := exists_read toUppercase hget hleft hfound
    have ha : a = post := by
      have hlen : (hub.log s.name).length - 1 = s.receiver.next := by omega
      rw [List.getLast?_eq_getElem?, hlen, getElem?_of_value hfound] at hlast
      exact Option.some.inj hlast
    refine ⟨[.turn i (.recv (bytesToStr a.message) true)], t, _,
      List.forall_mem_singleton.mpr trivial, ?_, hget', hchannel, by simp [Receiver.take, ha]⟩
    rw [run_cons, hs]
    rfl
  case value =>
    intro next a hfound ih hub s hget hleft hlog hnext
    subst hlog hnext
    obtain ⟨hub', listener, hs, hget', hlog', hchannel', hleft'⟩ :=
      exists_read toUppercase hget hleft hfound
    have hname : (Subscriber.mk listener (s.receiver.take a)).name = s.name :=
      congrArg bytesToStr hchannel'
    obtain ⟨gs, t, s', hgs, hrun, hs', hchannel, hgot⟩ :=
      ih hub' _ hget' hleft' (by rw [hname, hlog']) rfl
    refine ⟨.turn i (.recv (bytesToStr a.message) true) :: gs, t, s',
      List.forall_mem_cons.mpr ⟨trivial, hgs⟩, ?_, hs', hchannel.trans hchannel', hgot⟩
    rw [run_cons, hs]
    exact hrun
  case lagged =>
    intro next n hfound ih hub s hget hleft hlog hnext
    subst hlog hnext
    have hl : s.listener.step toUppercase .lagged = some _ := Listener.step_eq_some.mpr ⟨hleft, rfl⟩
    obtain ⟨hub', hs, hget', hlog'⟩ := exists_turn hget hl (by rw [hfound]; rfl)
    obtain ⟨gs, t, s', hgs, hrun, hs', hchannel, hgot⟩ := ih hub' _ hget' hleft (hlog' _) rfl
    refine ⟨.turn i .lagged :: gs, t, s', List.forall_mem_cons.mpr ⟨trivial, hgs⟩, ?_, hs',
      hchannel, hgot⟩
    rw [run_cons, hs]
    exact hrun

end Deliveries

section Isolation
variable {es : List HubEvent}

theorem sound_run (h : hub.Sound) (hrun : run (step toUppercase capacity) hub es = some hub') :
    hub'.Sound :=
  (Reachable.init.run es hrun).inv h fun _ _ _ hsound _ hs => sound_step hsound hs

theorem tabled_run (h : hub.Tabled) (hrun : run (step toUppercase capacity) hub es = some hub') :
    hub'.Tabled :=
  (Reachable.init.run es hrun).inv h fun _ _ _ htabled _ hs => tabled_step htabled hs

def Served (hub : Hub) : Prop :=
  ∀ s ∈ hub.subscribers, s.Sound (hub.log s.name) ∧ s.Served (hub.log s.name)

theorem served_step (h : hub.Served) (hclean : hub.Clean e)
    (hs : hub.step toUppercase capacity e = some hub') : hub'.Served := by
  refine forall_step (P := fun log s => s.Sound log ∧
    s.Served log) h (fun channel leftover log => ?_)
    (fun post he s hmem hname hserved => ?_) (fun s s' e' log ht hserved => ?_) hs
  · refine ⟨⟨Receiver.sound_join log, by simp [Listener.messages, Listener.subscribed, join]⟩,
      by simp [join], ?_⟩
    exact fun _ post hmem => absurd hmem (by rw [Receiver.unread_join]; exact List.not_mem_nil)
  · subst he
    refine ⟨⟨hserved.1.receiver.send post, hserved.1.messages⟩, hserved.2.got, fun hleft => ?_⟩
    rw [Receiver.unread_send hserved.1.receiver.next_le]
    exact List.forall_mem_append.mpr
      ⟨hserved.2.unread hleft, List.forall_mem_singleton.mpr (hclean s hmem hleft hname)⟩
  · exact ⟨sound_turn hserved.1 ht, served_turn hserved.2 ht⟩

theorem Served.isolated (h : hub.Served) : hub.Isolated :=
  fun s hmem => (isolated_iff_meant (h s hmem).1).mpr (h s hmem).2.got

/-- A message that is not meant for one who will get it: that subscriber need only
read on. -/
theorem exists_not_isolated (toUppercase : Char → Text) (hcap : 0 < capacity) (hsound : hub.Sound)
    (htabled : hub.Tabled) {post : Post} (hbad : ¬ hub.Clean (.publish post)) :
    ∃ gs t, (∀ e ∈ gs, HubEvent.IsDelivery e) ∧
      run (step toUppercase capacity) hub (.publish post :: gs) = some t ∧ ¬ t.Isolated := by
  simp only [Clean, not_forall] at hbad
  obtain ⟨s, hmem, hleft, hname, hnot⟩ := hbad
  have hheard : hub.receivers (bytesToStr post.channel) ≠ 0 :=
    Nat.pos_iff_ne_zero.mp (List.countP_pos_iff.mpr ⟨s, hmem, by simp [hleft, hname]⟩)
  have hthere : hub.channels.lookup (bytesToStr post.channel) ≠ none := by
    rw [← hname, Ne, AList.lookup_eq_none]
    exact not_not.mpr (htabled s hmem)
  have hpublish := (handlePublish_cases hub post).resolve_left fun h => h.2.elim hthere hheard
  obtain ⟨i, hget⟩ := List.getElem?_of_mem hmem
  have hlog :=
    log_insert hub s.name (bytesToStr post.channel) (hub.log (bytesToStr post.channel) ++ [post])
  rw [if_pos hname, ← hname] at hlog
  have hlt : s.receiver.next < (hub.log s.name ++ [post]).length := by
    have hle := (hsound s hmem).receiver.next_le
    rw [List.length_append, List.length_singleton]
    omega
  obtain ⟨gs, t, s', hgs, hrun, hget', hchannel, hgot⟩ :=
    getsTo_last toUppercase hcap List.getLast?_concat hlt i _ s (by rw [hname]; exact hget) hleft
      hlog rfl
  have hrun' : run (step toUppercase capacity) hub (.publish post :: gs) = some t := by
    rw [run_cons, step, hpublish, Option.bind_some, ← hname]
    exact hrun
  refine ⟨gs, t, hgs, hrun', fun hisolated => hnot ?_⟩
  have hmem' := List.mem_of_getElem? hget'
  rw [← hchannel]
  exact (isolated_iff_meant (sound_run hsound hrun' s' hmem')).mp (hisolated s' hmem') post hgot

theorem clean_of_isDelivery {e : HubEvent} (h : e.IsDelivery) (hub : Hub) : hub.Clean e := by
  cases e with
  | turn i e => trivial
  | subscribe channel leftover | publish post => exact absurd h id

/-- Every state of the run, and every state in which subscribers have read on from there. -/
def StaysIsolated (toUppercase : Char → Text) (capacity : Nat) (hub : Hub) (es : List HubEvent) :
    Prop :=
  ∀ fs, fs <+: es → ∀ gs, (∀ e ∈ gs, HubEvent.IsDelivery e) → ∀ t,
    run (step toUppercase capacity) hub (fs ++ gs) = some t → t.Isolated

theorem staysIsolated_of_clean (hserved : hub.Served)
    (h : AllOk (step toUppercase capacity) Clean hub es) :
    StaysIsolated toUppercase capacity hub es := by
  rintro fs ⟨rest, rfl⟩ gs hgs t hrun
  have hok : AllOk (step toUppercase capacity) Clean hub (fs ++ gs) :=
    AllOk.append.mpr ⟨(AllOk.append.mp h).1,
      fun s' _ => .of_forall (fun e he hub => clean_of_isDelivery (hgs e he) hub) s'⟩
  exact ((Reachable.init.run_ok (fs ++ gs) hok hrun).inv hserved
    fun _ _ _ hi hclean hs => served_step hi hclean hs).isolated

theorem clean_of_staysIsolated (hcap : 0 < capacity) (hsound : hub.Sound) (htabled : hub.Tabled)
    (h : StaysIsolated toUppercase capacity hub es) :
    AllOk (step toUppercase capacity) Clean hub es := by
  induction es generalizing hub with
  | nil => trivial
  | cons e es ih =>
    refine ⟨?_,
      fun hub' hs => ih (sound_step hsound hs) (tabled_step htabled hs) fun fs hfs gs hgs t hrun =>
        ?_⟩
    · cases e with
      | publish post =>
        by_contra hbad
        obtain ⟨gs, t, hgs, hrun, hnot⟩ := exists_not_isolated toUppercase hcap hsound htabled hbad
        exact hnot (h [.publish post] ⟨es, rfl⟩ gs hgs t hrun)
      | subscribe channel leftover | turn i e => trivial
    · refine h (e :: fs) (List.cons_prefix_cons.mpr ⟨rfl, hfs⟩) gs hgs t ?_
      rw [List.cons_append, run_cons, hs]
      exact hrun

/-- The subscribers stay isolated exactly over the runs in which each message is
meant for all who will get it. -/
theorem staysIsolated_iff (toUppercase : Char → Text) (hcap : 100 ≤ capacity) (es : List HubEvent) :
    StaysIsolated toUppercase capacity new es ↔ AllOk (step toUppercase capacity) Clean new es :=
  ⟨clean_of_staysIsolated (by omega) sound_new fun _ hmem => absurd hmem List.not_mem_nil,
    staysIsolated_of_clean fun _ hmem => absurd hmem List.not_mem_nil⟩

theorem staysIsolated_iff_news :
    StaysIsolated Listener.upperAscii 128 new
        [.subscribe (lit "news") [], .publish ⟨lit "news", lit "hello"⟩] ↔
      AllOk (step Listener.upperAscii 128) Clean new
        [.subscribe (lit "news") [], .publish ⟨lit "news", lit "hello"⟩] :=
  staysIsolated_iff Listener.upperAscii (by decide) _

/-- A message published on one name that is no UTF-8 reaches the subscriber of
another, and a message that is none arrives empty. -/
theorem not_staysIsolated_lossy :
    ¬ StaysIsolated Listener.upperAscii 128 new [.subscribe [0xFF] [],
      .publish ⟨[0xFE], lit "hello"⟩] ∧
    ¬ StaysIsolated Listener.upperAscii 128 new [.subscribe (lit "news") [],
      .publish ⟨lit "news", [0xFF]⟩] := by
  constructor <;> intro h
  · have hrun : (run (step Listener.upperAscii 128) new ([.subscribe [0xFF] [],
        .publish ⟨[0xFE], lit "hello"⟩] ++ [.turn 0 (.recv "hello".toList true)])).map
          (fun t => t.subscribers.map fun s => (s.listener.channel, s.receiver.got)) =
        some [([0xFF], [⟨[0xFE], lit "hello"⟩])] := by decide +kernel
    obtain ⟨t, ht, hsubs⟩ := Option.map_eq_some_iff.mp hrun
    obtain ⟨s, hs, hpair⟩ := List.map_eq_singleton_iff.mp hsubs
    obtain ⟨hchannel, hgot⟩ := Prod.mk.inj hpair
    have hisolated := h _ (List.prefix_refl _) [.turn 0 (.recv "hello".toList true)]
      (List.forall_mem_singleton.mpr trivial) t ht s (by simp [hs])
    have hsame := hisolated.2 ⟨[0xFE], lit "hello"⟩ (by simp [hgot])
    rw [hchannel] at hsame
    exact absurd hsame (by decide)
  · have hrun : (run (step Listener.upperAscii 128) new ([.subscribe (lit "news") [],
        .publish ⟨lit "news", [0xFF]⟩] ++ [.turn 0 (.recv [] true)])).map
          (fun t => t.subscribers.map fun s => (s.listener.messages, s.receiver.got)) =
        some [([[]], [⟨lit "news", [0xFF]⟩])] := by decide +kernel
    obtain ⟨t, ht, hsubs⟩ := Option.map_eq_some_iff.mp hrun
    obtain ⟨s, hs, hpair⟩ := List.map_eq_singleton_iff.mp hsubs
    obtain ⟨hmessages, hgot⟩ := Prod.mk.inj hpair
    have hisolated := h _ (List.prefix_refl _) [.turn 0 (.recv [] true)]
      (List.forall_mem_singleton.mpr trivial) t ht s (by simp [hs])
    have hsame := hisolated.1
    rw [hmessages, hgot] at hsame
    exact absurd hsame (by decide)

end Isolation

end Hub

end TitanKv
