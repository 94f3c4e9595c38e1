import TitanKv.Lib.Inevitable
import TitanKv.Pubsub

/-! # What reaches a subscriber

Isolation says that a subscriber gets nothing but what is its own. Here: it gets all of
it. While it never lags, the messages it was sent and those it has yet to read are the
ones published on its channel since it subscribed; and once nobody publishes, its turns
alone bring it to the end of the channel, in whatever order the subscribers take theirs. -/

namespace TitanKv
open Utf8 Runs Broadcast

section Published

/-- What a subscriber reads of it. -/
def Post.payload (post : Post) : Bytes := encode (bytesToStr post.message)

def HubEvent.postOn (name : Text) : HubEvent → Option Post
  | .publish post => if name = bytesToStr post.channel then some post else none
  | _ => none

/-- The posts of the run on a channel, in their order. -/
def published (name : Text) (es : List HubEvent) : List Post := es.filterMap (HubEvent.postOn name)

theorem published_concat (name : Text) (es : List HubEvent) (e : HubEvent) :
    published name (es ++ [e]) = published name es ++ (e.postOn name).toList := by
  rw [published, List.filterMap_append]
  cases h : e.postOn name <;> simp [h, published]

end Published

section Gapless
variable {toUppercase : Char → Text} {capacity : Nat} {hub hub' : Hub} {e : HubEvent}

/-- A subscriber that has not lagged was sent a prefix of the posts, and the others wait
for it while it stays. -/
structure Subscriber.Follows (log posts : List Post) (s : Subscriber) : Prop where
  messages : s.listener.messages = s.receiver.got.map Post.payload
  receiver : s.receiver.Follows log posts (s.listener.hasLeft = false)

theorem follows_turn {log posts : List Post} {s s' : Subscriber} {e : Select}
    (h : s.Follows log posts)
    (ht : s.turn toUppercase capacity log e = some s') (hlag : e ≠ .lagged) :
    s'.Follows log posts := by
  obtain ⟨hr, hl⟩ := turn_eq_some.mp ht
  obtain ⟨hleft, -⟩ := Listener.step_eq_some.mp hl
  refine ⟨(sound_turn ⟨h.receiver.sound, h.messages⟩ ht).messages, ?_⟩
  rcases advance_cases hr with ⟨post, -, hfound, hr'⟩ | ⟨oldest, he, -, -⟩ | ⟨-, hr'⟩
  · rw [hr']
    exact h.receiver.take hleft hfound
  · exact absurd he hlag
  · rw [hr']
    exact h.receiver.mono fun _ => hleft

namespace Hub

/-- The subscriber at `i` subscribed to `channel` and has not lagged since. -/
def FollowedBy (hub : Hub) (i : Nat) (channel : Bytes) (posts : List Post) : Prop :=
  bytesToStr channel ∈ hub.channels ∧ ∃ s, hub.subscribers[i]? = some s ∧
    s.listener.channel = channel ∧
    s.Follows (hub.log (bytesToStr channel)) posts

theorem followedBy_subscribe (hub : Hub) (channel leftover : Bytes) :
    (hub.handleSubscribe channel leftover).FollowedBy hub.subscribers.length channel [] := by
  have hlog : (hub.handleSubscribe channel leftover).log (bytesToStr channel) =
      hub.log (bytesToStr channel) :=
    log_handleSubscribe channel leftover
  refine ⟨?_, _, List.getElem?_concat_length, rfl, ?_⟩
  · unfold handleSubscribe
    cases hl : hub.channels.lookup (bytesToStr channel) with
    | some log => exact AList.lookup_isSome.mp (by rw [hl]; rfl)
    | none => exact (AList.mem_insert _).mpr (Or.inl rfl)
  · rw [hlog]
    exact ⟨by simp [Listener.messages, Listener.subscribed, join], Receiver.follows_join _ _⟩

theorem followedBy_publish {i : Nat} {channel : Bytes} {posts : List Post}
    (h : hub.FollowedBy i channel posts) (post : Post) :
    (hub.handlePublish post).2.FollowedBy i channel
      (posts ++ (HubEvent.postOn (bytesToStr channel) (.publish post)).toList) := by
  obtain ⟨hmem, s, hget, hchannel, hfollows⟩ := h
  by_cases hname : bytesToStr channel = bytesToStr post.channel
  · rw [HubEvent.postOn, if_pos hname, Option.toList_some]
    rcases handlePublish_cases hub post with ⟨heq, hnobody⟩ | heq
    · -- Nobody is there to receive it, so this subscriber has left.
      rw [heq]
      refine ⟨hmem, s, hget, hchannel, hfollows.messages,
        hfollows.receiver.miss (fun hleft => ?_) post⟩
      rw [← hname] at hnobody
      refine absurd hnobody (not_or.mpr ⟨fun hnone => AList.lookup_eq_none.mp hnone hmem, ?_⟩)
      exact Nat.pos_iff_ne_zero.mp (List.countP_pos_iff.mpr
        ⟨s, List.mem_of_getElem? hget, by simp [hleft, Subscriber.name, hchannel]⟩)
    · rw [heq]
      refine ⟨(AList.mem_insert _).mpr (Or.inr hmem), s, hget, hchannel, hfollows.messages, ?_⟩
      rw [log_insert, if_pos hname, ← hname]
      exact hfollows.receiver.send post
  · rw [HubEvent.postOn, if_neg hname, Option.toList_none, List.append_nil]
    rcases handlePublish_cases hub post with ⟨heq, -⟩ | heq
    · rw [heq]
      exact ⟨hmem, s, hget, hchannel, hfollows⟩
    · rw [heq]
      refine ⟨(AList.mem_insert _).mpr (Or.inr hmem), s, hget, hchannel, ?_⟩
      rw [log_insert, if_neg hname]
      exact hfollows

theorem followedBy_step {i : Nat} {channel : Bytes} {posts : List Post}
    (h : hub.FollowedBy i channel posts)
    (hs : hub.step toUppercase capacity e = some hub') (hlag : e ≠ .turn i .lagged) :
    hub'.FollowedBy i channel (posts ++ (e.postOn (bytesToStr channel)).toList) := by
  cases e with
  | publish post =>
    cases hs
    exact followedBy_publish h post
  | subscribe channel' leftover =>
    cases hs
    change FollowedBy _ i channel (posts ++ [])
    rw [List.append_nil]
    obtain ⟨hmem, s, hget, hchannel, hfollows⟩ := h
    refine ⟨?_, s, ?_, hchannel, ?_⟩
    · unfold handleSubscribe
      cases hub.channels.lookup (bytesToStr channel') with
      | some log => exact hmem
      | none => exact (AList.mem_insert _).mpr (Or.inr hmem)
    · exact (List.getElem?_append_left (List.getElem?_eq_some_iff.mp hget).1).trans hget
    · rw [log_handleSubscribe]
      exact hfollows
  | turn j e =>
    change FollowedBy _ i channel (posts ++ [])
    rw [List.append_nil]
    obtain ⟨hmem, s, hget, hchannel, hfollows⟩ := h
    obtain ⟨t, hget', t', ht, rfl⟩ := step_turn.mp hs
    by_cases hij : j = i
    · subst hij
      obtain rfl := Option.some.inj (hget.symm.trans hget')
      refine ⟨hmem, t', List.getElem?_set_self (List.getElem?_eq_some_iff.mp hget).1,
        (channel_turn ht).trans hchannel, ?_⟩
      have hname : s.name = bytesToStr channel := congrArg bytesToStr hchannel
      rw [hname] at ht
      exact follows_turn hfollows ht fun he => hlag (by rw [he])
    · exact ⟨hmem, s, (List.getElem?_set_ne hij).trans hget, hchannel, hfollows⟩

theorem followedBy_run {i : Nat} {channel : Bytes} {es : List HubEvent}
    (h : hub.FollowedBy i channel [])
    (hrun : run (step toUppercase capacity) hub es = some hub') (hlag : .turn i .lagged ∉ es) :
    hub'.FollowedBy i channel (published (bytesToStr channel) es) := by
  induction es using List.reverseRecOn generalizing hub' with
  | nil =>
    obtain rfl := Option.some.inj hrun
    exact h
  | append_singleton es e ih =>
    rw [run_append] at hrun
    obtain ⟨t, ht, hlast⟩ := Option.bind_eq_some_iff.mp hrun
    rw [run_cons, Option.bind_eq_some_iff] at hlast
    obtain ⟨t', hs, hend⟩ := hlast
    obtain rfl := Option.some.inj hend
    rw [List.mem_append, not_or, List.mem_singleton] at hlag
    rw [published_concat]
    exact followedBy_step (ih ht hlag.1) hs (Ne.symm hlag.2)

/-- A client subscribes, in any state, and anything follows in which it does not lag: the
messages it was sent are the first of those published on its channel since, and the rest
are what it has yet to read, unless its loop has left. -/
theorem delivered {channel leftover : Bytes} {es : List HubEvent}
    (hrun : run (step toUppercase capacity) (hub.handleSubscribe channel leftover) es = some hub')
    (hlag : .turn hub.subscribers.length .lagged ∉ es) :
    ∃ s rest, hub'.subscribers[hub.subscribers.length]? = some s ∧ s.listener.channel = channel ∧
      (published (bytesToStr channel) es).map Post.payload =
        s.listener.messages ++ rest.map Post.payload ∧
      (s.listener.hasLeft = false → rest = (hub'.log s.name).drop s.receiver.next) := by
  obtain ⟨-, s, hget, hchannel, hfollows⟩ :=
    followedBy_run (followedBy_subscribe hub channel leftover) hrun hlag
  have hname : s.name = bytesToStr channel := congrArg bytesToStr hchannel
  obtain ⟨rest, hrest⟩ := hfollows.receiver.got
  refine ⟨s, rest, hget, hchannel, ?_, fun hleft => ?_⟩
  · rw [← hrest, List.map_append, hfollows.messages]
  · rw [hname]
    exact List.append_cancel_left (hrest.trans (hfollows.receiver.unread hleft))

/-- Two messages on a channel and one beside it, the first of them read. -/
theorem delivered_news :
    ∃ t, run (step Listener.upperAscii 128) (new.handleSubscribe (lit "news") [])
      [.publish ⟨lit "news", lit "one"⟩, .publish ⟨lit "sport", lit "two"⟩,
        .publish ⟨lit "news", lit "three"⟩, .turn 0 (.recv "one".toList true)] = some t ∧
    ∃ s rest, t.subscribers[0]? = some s ∧ s.listener.channel = lit "news" ∧
      (published (bytesToStr (lit "news")) [.publish ⟨lit "news", lit "one"⟩,
        .publish ⟨lit "sport", lit "two"⟩,
        .publish ⟨lit "news", lit "three"⟩, .turn 0 (.recv "one".toList true)]).map Post.payload =
          s.listener.messages ++ rest.map Post.payload ∧
      (s.listener.hasLeft = false → rest = (t.log s.name).drop s.receiver.next) := by
  have hsome : (run (step Listener.upperAscii 128) (new.handleSubscribe (lit "news") [])
      [.publish ⟨lit "news", lit "one"⟩, .publish ⟨lit "sport", lit "two"⟩,
        .publish ⟨lit "news", lit "three"⟩,
        .turn 0 (.recv "one".toList true)]).isSome := by decide +kernel
  obtain ⟨t, hrun⟩ := Option.isSome_iff_exists.mp hsome
  exact ⟨t, hrun, delivered hrun (by decide +kernel)⟩

end Hub

end Gapless

section Deliveries
variable {toUppercase : Char → Text} {capacity : Nat} {hub hub' : Hub} {e : HubEvent}

namespace Hub

/-- The steps in which a subscriber takes what the channel has for it. -/
def deliver (toUppercase : Char → Text) (capacity : Nat) (hub : Hub) : HubEvent → Option Hub
  | .turn i (.recv msg written) => hub.step toUppercase capacity (.turn i (.recv msg written))
  | .turn i .lagged => hub.step toUppercase capacity (.turn i .lagged)
  | _ => none

/-- What a subscriber has yet to take, and its leaving. -/
def behind (hub : Hub) (s : Subscriber) : Nat :=
  if s.listener.hasLeft then 0 else (hub.log s.name).length - s.receiver.next + 1

theorem deliver_some (h : hub.deliver toUppercase capacity e = some hub') :
    ∃ i e' s s', e = .turn i e' ∧ hub.subscribers[i]? = some s ∧
      s.turn toUppercase capacity (hub.log s.name) e' = some s' ∧
      hub' = { hub with subscribers := hub.subscribers.set i s' } ∧
        ((∃ msg written, e' = .recv msg written) ∨ e' = .lagged) := by
  cases e with
  | subscribe channel leftover | publish post => cases h
  | turn i e' =>
    cases e' with
    | segment bytes | shutdown | failure | readLine | readError => cases h
    | recv msg written =>
      obtain ⟨s, hget, s', ht, hset⟩ := step_turn.mp h
      exact ⟨i, _, s, s', rfl, hget, ht, hset.symm, Or.inl ⟨msg, written, rfl⟩⟩
    | lagged =>
      obtain ⟨s, hget, s', ht, hset⟩ := step_turn.mp h
      exact ⟨i, _, s, s', rfl, hget, ht, hset.symm, Or.inr rfl⟩

/-- A delivery takes something, or it fails and the loop leaves. -/
theorem behind_turn {s s' : Subscriber} {e' : Select}
    (ht : s.turn toUppercase capacity (hub.log s.name) e' = some s')
    (he' : (∃ msg written, e' = .recv msg written) ∨ e' = .lagged) :
    hub.behind s' < hub.behind s := by
  have hname : s'.name = s.name := congrArg bytesToStr (channel_turn ht)
  obtain ⟨hr, hl⟩ := turn_eq_some.mp ht
  obtain ⟨hleft, hreact⟩ := Listener.step_eq_some.mp hl
  have hlive : hub.behind s = (hub.log s.name).length - s.receiver.next + 1 :=
    if_neg (by rw [hleft]; exact Bool.false_ne_true)
  have hle : hub.behind s' ≤ (hub.log s.name).length - s'.receiver.next + 1 := by
    unfold behind
    rw [hname]
    split
    · exact Nat.zero_le _
    · exact Nat.le_refl _
  rcases he' with ⟨msg, written, rfl⟩ | rfl
  · cases written with
    | true =>
      rcases advance_cases hr with ⟨post, -, hfound, hr'⟩ | ⟨oldest, he, -, -⟩ | ⟨hquiet, -⟩
      · have hlt := lt_of_value hfound
        rw [hr', show (s.receiver.take post).next = s.receiver.next + 1 from rfl] at hle
        omega
      · cases he
      · exact absurd (hquiet []) (List.cons_ne_nil _ _)
    | false =>
      obtain ⟨-, hgone⟩ := Listener.react_unwritten hreact
      have hzero : hub.behind s' = 0 := if_pos (by rw [hgone])
      omega
  · cases hfound : poll capacity (hub.log s.name) s.receiver.next with
    | lagged oldest =>
      rw [hfound] at hr
      have hr' : s.receiver.skip oldest = s'.receiver := Option.some.inj hr
      have hlt := bounds_of_lagged hfound
      rw [← hr', show (s.receiver.skip oldest).next = oldest from rfl] at hle
      omega
    | pending | value post =>
      rw [hfound] at hr
      cases hr

/-- All that the subscribers have yet to take. -/
def outstanding (hub : Hub) : Nat := (hub.subscribers.map hub.behind).sum

theorem deliver_outstanding (h : hub.deliver toUppercase capacity e = some hub') :
    hub'.outstanding < hub.outstanding := by
  obtain ⟨i, e', s, s', rfl, hget, ht, rfl, he'⟩ := deliver_some h
  obtain ⟨others, hold, hnew⟩ := exists_others hub.behind hget
  have hsame : ({ hub with subscribers := hub.subscribers.set i s' } : Hub).outstanding =
      ((hub.subscribers.set i s').map hub.behind).sum := rfl
  rw [hsame, hnew s', outstanding, hold]
  exact Nat.add_lt_add_right (behind_turn ht he') others

/-- The subscriber that stood at `i` in the first hub has been sent what it has taken since,
and can still take the rest, unless it has left. -/
def Keeps (capacity : Nat) (first hub : Hub) : Prop :=
  hub.Sound ∧ (∀ name, hub.log name = first.log name) ∧
    ∀ (i : Nat) (s : Subscriber), first.subscribers[i]? = some s → s.listener.hasLeft = false →
      (first.log s.name).length ≤ s.receiver.next + capacity →
      ∃ s', hub.subscribers[i]? = some s' ∧ s'.listener.channel = s.listener.channel ∧
        (s'.listener.hasLeft = true ∨
          (first.log s.name).length ≤ s'.receiver.next + capacity ∧
            s'.receiver.got ++ (first.log s.name).drop s'.receiver.next =
              s.receiver.got ++ (first.log s.name).drop s.receiver.next)

theorem keeps_deliver {first : Hub} (h : Keeps capacity first hub)
    (hd : hub.deliver toUppercase capacity e = some hub') :
    Keeps capacity first hub' := by
  obtain ⟨hsound, hlog, hkept⟩ := h
  obtain ⟨j, e', t, t', rfl, hget, ht, rfl, -⟩ := deliver_some hd
  have hstep : hub.step toUppercase capacity (.turn j e') = some { hub with
      subscribers := hub.subscribers.set j t' } :=
    step_turn.mpr ⟨t, hget, t', ht, rfl⟩
  refine ⟨sound_step hsound hstep, hlog, fun i s hi hleft hnear => ?_⟩
  obtain ⟨s', hi', hchannel, hstate⟩ := hkept i s hi hleft hnear
  by_cases hij : j = i
  · subst hij
    obtain rfl := Option.some.inj (hi'.symm.trans hget)
    refine ⟨t', List.getElem?_set_self (List.getElem?_eq_some_iff.mp hget).1,
      (channel_turn ht).trans hchannel, ?_⟩
    obtain ⟨hr, hl⟩ := turn_eq_some.mp ht
    have hlive := (Listener.step_eq_some.mp hl).1
    rcases hstate with hgone | ⟨hclose, hall⟩
    · rw [hlive] at hgone
      cases hgone
    · have hname : s'.name = s.name := congrArg bytesToStr hchannel
      rw [hlog, hname] at hr
      rcases advance_cases hr with ⟨post, -, hfound, hr'⟩ | ⟨oldest, -, hfound, -⟩ | ⟨-, hr'⟩
      · refine Or.inr ⟨?_, ?_⟩
        · rw [hr', show (s'.receiver.take post).next = s'.receiver.next + 1 from rfl]
          omega
        · rw [← hall, unread_of_value hfound, hr', Receiver.take, List.append_assoc]
          rfl
      · -- A subscriber no further behind than the channel holds does not lag.
        obtain ⟨hlt, holdest⟩ := bounds_of_lagged hfound
        omega
      · rw [hr']
        exact Or.inr ⟨hclose, hall⟩
  · exact ⟨s', (List.getElem?_set_ne hij).trans hi', hchannel, hstate⟩

/-- A subscriber behind the end of its channel has a turn to take. -/
theorem exists_deliver {s : Subscriber} (hmem : s ∈ hub.subscribers)
    (hleft : s.listener.hasLeft = false)
    (hlt : s.receiver.next < (hub.log s.name).length) :
    ∃ e hub', hub.deliver toUppercase capacity e = some hub' := by
  obtain ⟨i, hget⟩ := List.getElem?_of_mem hmem
  cases hfound : poll capacity (hub.log s.name) s.receiver.next with
  | pending => exact absurd (le_of_pending hfound) (by omega)
  | value post =>
    obtain ⟨hub', listener, hs, -⟩ := exists_read toUppercase hget hleft hfound
    exact ⟨.turn i (.recv (bytesToStr post.message) true), hub', hs⟩
  | lagged oldest =>
    have hl : s.listener.step toUppercase .lagged = some _ := Listener.step_eq_some.mpr ⟨hleft, rfl⟩
    obtain ⟨hub', hs, -⟩ := exists_turn hget hl (by rw [hfound]; rfl)
    exact ⟨.turn i .lagged, hub', hs⟩

/-- From any state a run has come to, the subscribers' turns alone, in any order, bring each
that was no further behind than its channel holds all it had yet to read, unless its
connection breaks. -/
theorem deliveries_end {es : List HubEvent}
    (hrun : run (step toUppercase capacity) new es = some hub) :
    Inevitable (deliver toUppercase capacity) (fun t => ∀ (i : Nat) (s : Subscriber),
      hub.subscribers[i]? = some s →
      s.listener.hasLeft = false →
      (hub.log s.name).length ≤ s.receiver.next + capacity →
      ∃ s', t.subscribers[i]? = some s' ∧ (s'.listener.hasLeft = true ∨
        s'.listener.messages = s.listener.messages ++
          ((hub.log s.name).drop s.receiver.next).map Post.payload)) hub := by
  have hsound := sound_run sound_new hrun
  refine Inevitable.of_measure (Keeps capacity hub) (InvImage.wf outstanding Nat.lt_wfRel.wf)
    (fun t e t' ht hd => keeps_deliver ht hd) (fun t e t' _ hd => deliver_outstanding hd)
      (fun t ht hdone => ?_)
    ⟨hsound, fun _ => rfl, fun i s hi _ hnear => ⟨s, hi, rfl, Or.inr ⟨hnear, rfl⟩⟩⟩
  obtain ⟨hsound', hlog, hkept⟩ := ht
  simp only [not_forall] at hdone
  obtain ⟨i, s, hi, hleft, hnear, hnot⟩ := hdone
  obtain ⟨s', hi', hchannel, hstate⟩ := hkept i s hi hleft hnear
  have hmem := List.mem_of_getElem? hi'
  have hlive : s'.listener.hasLeft = false :=
    Bool.eq_false_iff.mpr fun hgone => hnot ⟨s', hi', Or.inl hgone⟩
  obtain ⟨hclose, hall⟩ := hstate.resolve_left (by rw [hlive]; exact Bool.false_ne_true)
  have hname : s'.name = s.name := congrArg bytesToStr hchannel
  refine exists_deliver hmem hlive ?_
  rw [hlog, hname]
  by_contra hend
  rw [List.drop_of_length_le (Nat.not_lt.mp hend), List.append_nil] at hall
  refine hnot ⟨s', hi', Or.inr ?_⟩
  rw [(hsound' s' hmem).messages, (hsound s (List.mem_of_getElem? hi)).messages, hall,
    List.map_append]
  rfl

theorem deliveries_end_news : ∃ hub, run (step Listener.upperAscii 128) new
      [.subscribe (lit "news") [], .subscribe (lit "news") [], .publish ⟨lit "news", lit "one"⟩] =
        some hub ∧
    Inevitable (deliver Listener.upperAscii 128) (fun t => ∀ (i : Nat) (s : Subscriber),
      hub.subscribers[i]? = some s →
      s.listener.hasLeft = false → (hub.log s.name).length ≤ s.receiver.next + 128 →
      ∃ s', t.subscribers[i]? = some s' ∧ (s'.listener.hasLeft = true ∨
        s'.listener.messages = s.listener.messages ++
          ((hub.log s.name).drop s.receiver.next).map Post.payload)) hub := by
  have hsome : (run (step Listener.upperAscii 128) new
      [.subscribe (lit "news") [], .subscribe (lit "news") [],
        .publish ⟨lit "news", lit "one"⟩]).isSome := by decide +kernel
  obtain ⟨hub, hrun⟩ := Option.isSome_iff_exists.mp hsome
  exact ⟨hub, hrun, deliveries_end hrun⟩

end Hub

end Deliveries

end TitanKv
