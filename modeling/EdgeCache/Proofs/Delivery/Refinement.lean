import EdgeCache.Proofs.Delivery.Sending
import Mathlib.Algebra.GroupWithZero.Nat

/-!
# What a connection gets is what was written

`Sending.Refines` is the protocol between a writer and its connection: which head is taken, which
chunks, when the body ends, what a write reports and when it is held up.  It is so after every run
(`Sending.writer_refines`).

Two things are kept by everything that happens.  What the connection has got is a beginning of the
response (`Sending.Told`), and calls of the writer do not touch it (`Sending.Told.act`), since a
response that something is known of has its head already.  And where the chunks are that were
accepted and not taken depends on what the connection is doing (`Sending.Holds`).
-/

set_option autoImplicit false

namespace EdgeCache

namespace Sending

/-! ## The protocol -/

/-- What the connection has got is the response of the writer, after a run with this record. -/
structure Refines (capacity : Nat) (t : List (Sending × Move)) (s : Sending) : Prop where
  /-- The connection takes one head, and it is that of the response: the first one asked for, or the
  one of an error after the writer has been dropped without a call. -/
  head : resolved t = [] ∨ resolved t = [answer t] ∧ (asked t ≠ [] ∨ s.client.released = true)
  /-- It can take it as soon as it has been asked for, or the writer has been dropped. -/
  resolvable : s.reception = .waiting → (asked t ≠ [] ∨ s.client.released = true) →
    (s.reception.head? s.client).map (·.1) = some (answer t)
  /-- The chunks taken are a beginning of those of the response. -/
  chunks : taken t <+: body t
  /-- The body ends when the writer has been dropped and all chunks have been taken. -/
  finished : .finish ∈ frames t → s.client.released = true ∧ taken t = body t
  /-- The connection waits only for chunks that have not been accepted yet. -/
  pending : (s.reception.next s.client).1 = .pending →
    s.client.released = false ∧ taken t = accepted t
  /-- The counter is the length of the chunks accepted. -/
  counter : s.client.bytesSent = ((accepted t).map List.length).sum
  /-- A write ends without a failure while the connection is there, and with one afterwards. -/
  reported : ∀ p ∈ t, ∀ chunk failure, reports? p = some (chunk, failure) →
    failure = if p.1.isGone then some .clientGone else none
  /-- The connection stays away, and the counter stays as it is. -/
  gone : ∀ p ∈ t, p.1.isGone = true ∨ p.2 = .leave →
    s.isGone = true ∧ s.client.bytesSent = p.1.client.bytesSent
  /-- A write is held up only by as many chunks as there is room for, all waiting to be taken. -/
  held : s.writing.isSome = true → s.move .proceed = none →
    s.isGone = false ∧ (accepted t).length = (taken t).length + max 1 capacity

/-! ## What is kept -/

/-- What the connection has got, whatever it is doing. -/
structure Told (t : List (Sending × Move)) (s : Sending) : Prop where
  head : resolved t = [] ∨ resolved t = [answer t] ∧ (asked t ≠ [] ∨ s.client.released = true)
  early : resolved t = [] → taken t = [] ∧ .finish ∉ frames t
  chunks : taken t <+: body t
  finished : .finish ∈ frames t → s.client.released = true ∧ taken t = body t

/-- Where the chunks of the response are, by what the connection is doing. -/
def Holds (t : List (Sending × Move)) (released : Bool) (queue : List Bytes) : Reception → Prop
  | .waiting => resolved t = [] ∧ queue = accepted t
  | .streaming => asked t ≠ [] ∧ resolved t ≠ [] ∧ taken t ++ queue = accepted t
  | .canned rest =>
    asked t = [] ∧ released = true ∧ resolved t ≠ [] ∧ taken t ++ rest = [Plain.body .badGateway]
  | .gone => queue = []

/-- What everything that happens keeps. -/
structure Kept (capacity : Nat) (t : List (Sending × Move)) (s : Sending) (ch : Channel) :
    Prop where
  link : s.client.link = .channel ch
  bound : ch.capacity = capacity
  head : s.client.head = (asked t).head?
  counter : ch.accepted = ((accepted t).map List.length).sum
  /-- Nothing is accepted before a head has been asked for. -/
  quiet : asked t = [] → accepted t = []
  idle : s.client.released = true → s.writing = none
  abandoned : ch.abandoned = s.isGone
  room : ch.queue.length ≤ max 1 capacity
  holds : Holds t s.client.released ch.queue s.reception
  told : Told t s

section Kept

variable {capacity : Nat} {t t' : List (Sending × Move)} {s s' : Sending} {ch : Channel}

theorem kept_start : Kept capacity [] (start capacity) { capacity } where
  link := rfl
  bound := rfl
  head := rfl
  counter := rfl
  quiet _ := rfl
  idle := nofun
  abandoned := rfl
  room := Nat.zero_le _
  holds := ⟨rfl, rfl⟩
  told := ⟨.inl rfl, fun _ => ⟨rfl, nofun⟩, List.nil_prefix, nofun⟩

/-- Once a head has been asked for it stays the head of the response. -/
theorem answer_eq {more : List Head} (hasked : asked t' = asked t ++ more) (h : asked t ≠ []) :
    answer t' = answer t := by
  obtain ⟨head, rest, hrest⟩ := List.exists_cons_of_ne_nil h
  rw [answer, answer, hasked, hrest]
  rfl

/-- What the connection has got is not touched by what the writer does. -/
theorem Told.act (h : Told t s) {heads : List Head} {chunks : List Bytes}
    (hresolved : resolved t' = resolved t) (hframes : frames t' = frames t)
    (htaken : taken t' = taken t) (hasked : asked t' = asked t ++ heads)
    (haccepted : accepted t' = accepted t ++ chunks)
    (hreleased : s.client.released = true →
      s'.client.released = true ∧ heads = [] ∧ chunks = []) : Told t' s' := by
  have hanswer : asked t ≠ [] ∨ s.client.released = true → answer t' = answer t := by
    rintro (hne | hrel)
    · exact answer_eq hasked hne
    · rw [(hreleased hrel).2.1, List.append_nil] at hasked
      rw [answer, hasked, answer]
  have hbody : asked t ≠ [] ∨ s.client.released = true → body t <+: body t' := by
    rintro (hne | hrel)
    · rw [body, body, if_neg hne, if_neg (by simp [hasked, hne]), haccepted]
      exact List.prefix_append _ _
    · obtain ⟨-, rfl, rfl⟩ := hreleased hrel
      have hsame : body t' = body t := by
        rw [body, body, hasked, haccepted, List.append_nil, List.append_nil]
      exact hsame ▸ List.prefix_refl _
  refine ⟨?_, ?_, ?_, fun hfinish => ?_⟩
  · rw [hresolved]
    refine h.head.imp id fun ⟨hhead, hknown⟩ => ⟨by rw [hanswer hknown, hhead], ?_⟩
    exact hknown.imp (fun hne => by simp [hasked, hne]) fun hrel => (hreleased hrel).1
  · rw [hresolved, htaken, hframes]
    exact h.early
  · rw [htaken]
    rcases h.head with hnone | ⟨-, hknown⟩
    · rw [(h.early hnone).1]
      exact List.nil_prefix
    · exact h.chunks.trans (hbody hknown)
  · obtain ⟨hrel, hall⟩ := h.finished (hframes ▸ hfinish)
    obtain ⟨hrel', rfl, rfl⟩ := hreleased hrel
    refine ⟨hrel', ?_⟩
    rw [htaken, hall, body, body, hasked, haccepted, List.append_nil, List.append_nil]

/-- What a call of the writer, or a part of one, may do. -/
theorem Kept.act (h : Kept capacity t s ch) {m : Move} {client : Client} {writing : Option Bytes}
    (hframe : frame? (s, m) = none) (hresolves : resolves? (s, m) = none)
    (hlink : client.link = .channel { ch with
      queue := ch.queue ++ (accepts? (s, m)).toList
      accepted := ch.accepted + ((accepts? (s, m)).toList.map List.length).sum })
    (hhead : client.head = s.client.head.or (asks? (s, m)))
    (hreleased : s.client.released = true →
      client.released = true ∧ asks? (s, m) = none ∧ accepts? (s, m) = none)
    (hwriting : client.released = true → writing = none)
    (haccepts : accepts? (s, m) ≠ none →
      asks? (s, m) ≠ none ∧ s.isGone = false ∧ ch.hasRoom = true) :
    Kept capacity (t ++ [(s, m)]) { s with client, writing } { ch with
      queue := ch.queue ++ (accepts? (s, m)).toList
      accepted := ch.accepted + ((accepts? (s, m)).toList.map List.length).sum } := by
  have hresolved : resolved (t ++ [(s, m)]) = resolved t := by simp [resolved_append, hresolves]
  have hframes : frames (t ++ [(s, m)]) = frames t := by simp [frames_append, hframe]
  have htaken : taken (t ++ [(s, m)]) = taken t := by simp [taken_append, takes?, hframe]
  refine ⟨hlink, h.bound, ?_, ?_, fun hnone => ?_, hwriting, h.abandoned, ?_, ?_, ?_⟩
  · rw [asked_append, List.head?_append, ← h.head, Option.head?_toList]
    exact hhead
  · simp only [accepted_append, List.map_append, List.sum_append, h.counter]
  · rw [asked_append, List.append_eq_nil_iff] at hnone
    have hnot : accepts? (s, m) = none :=
      Decidable.of_not_not fun hne => (haccepts hne).1 (by simpa using hnone.2)
    rw [accepted_append, h.quiet hnone.1, hnot]
    rfl
  · cases hacc : accepts? (s, m) with
    | none => simpa using h.room
    | some chunk =>
      have hroom := (haccepts (by simp [hacc])).2.2
      simp only [Channel.hasRoom, decide_eq_true_eq, h.bound] at hroom
      simpa [Nat.succ_le_iff] using hroom
  · have hholds := h.holds
    cases hreception : s.reception with
    | waiting =>
      rw [hreception] at hholds
      exact ⟨hresolved.trans hholds.1, by rw [accepted_append, hholds.2]⟩
    | streaming =>
      rw [hreception] at hholds
      refine ⟨by simp [asked_append, hholds.1], by rw [hresolved]; exact hholds.2.1, ?_⟩
      rw [htaken, accepted_append, ← List.append_assoc, hholds.2.2]
    | canned rest =>
      rw [hreception] at hholds
      obtain ⟨hrel, hasks, -⟩ := hreleased hholds.2.1
      refine ⟨by simp [asked_append, hholds.1, hasks], hrel, ?_, ?_⟩
      · rw [hresolved]
        exact hholds.2.2.1
      · rw [htaken]
        exact hholds.2.2.2
    | gone =>
      rw [hreception] at hholds
      have hnot : accepts? (s, m) = none := by
        refine Decidable.of_not_not fun hne => ?_
        have hgone := (haccepts hne).2.1
        rw [isGone, hreception] at hgone
        exact absurd hgone (by simp)
      rw [hnot]
      exact (List.append_nil _).trans hholds
  · refine h.told.act hresolved hframes htaken asked_append accepted_append fun hrel => ?_
    obtain ⟨hrel', hasks, hacc⟩ := hreleased hrel
    simp [hrel', hasks, hacc]

/-- What a call of the writer may do that no chunk is accepted in. -/
theorem Kept.writer (h : Kept capacity t s ch) {m : Move} {client : Client}
    {writing : Option Bytes} (hframe : frame? (s, m) = none) (hresolves : resolves? (s, m) = none)
    (haccepts : accepts? (s, m) = none) (hlink : client.link = s.client.link)
    (hhead : client.head = s.client.head.or (asks? (s, m)))
    (hreleased : s.client.released = true → client.released = true ∧ asks? (s, m) = none)
    (hwriting : client.released = true → writing = none) :
    ∃ ch', Kept capacity (t ++ [(s, m)]) { s with client, writing } ch' := by
  refine ⟨_, h.act hframe hresolves ?_ hhead ?_ hwriting ?_⟩
  · simp [hlink, h.link, haccepts]
  · simpa [haccepts] using hreleased
  · simp [haccepts]

/-- What a write on a channel comes to. -/
theorem write_channel {c : Client} (hlink : c.link = .channel ch) (chunk : Bytes) :
    (c.head = none ∧ c.write chunk = .partly (c.commit .ok)) ∨
      c.head ≠ none ∧
        (ch.abandoned = true ∧ c.write chunk = .finished c (some .clientGone) ∨
          ch.abandoned = false ∧ ch.hasRoom = true ∧ c.write chunk = .finished { c with
            link := .channel { ch with
              queue := ch.queue ++ [chunk], accepted := ch.accepted + chunk.length } } none ∨
          ch.abandoned = false ∧ ch.hasRoom = false ∧ c.write chunk = .blocked) := by
  by_cases hhead : c.head = none
  · refine .inl ⟨hhead, ?_⟩
    simp [Client.write, Client.isCommitted, Client.commitsOnWrite, hhead, hlink]
  · refine .inr ⟨hhead, ?_⟩
    have hsend : c.write chunk = c.send chunk := by
      simp [Client.write, Client.isCommitted, Option.isSome_iff_ne_none.2 hhead]
    simp only [hsend, Client.send, hlink]
    cases ch.abandoned with
    | true => exact .inl ⟨rfl, rfl⟩
    | false =>
      cases ch.hasRoom with
      | true => exact .inr (.inl ⟨rfl, rfl, rfl⟩)
      | false => exact .inr (.inr ⟨rfl, rfl, rfl⟩)

theorem Kept.proceed (h : Kept capacity t s ch) (hm : s.move .proceed = some s') :
    ∃ ch', Kept capacity (t ++ [(s, .proceed)]) s' ch' := by
  obtain ⟨chunk, hwriting, hm⟩ := Option.bind_eq_some_iff.1 hm
  have hpresent : s.client.released = false := by
    cases hrel : s.client.released with
    | false => rfl
    | true => exact absurd (h.idle hrel) (by simp [hwriting])
  have hasks : asks? (s, .proceed) = some ⟨.ok, s.client.headers⟩ := by simp [asks?, hwriting]
  rcases write_channel h.link chunk with
    ⟨hnone, hw⟩ | ⟨hsome, ⟨-, hw⟩ | ⟨hthere, hroom, hw⟩ | ⟨-, -, hw⟩⟩
  · rw [hw] at hm
    obtain rfl := Option.some.inj hm
    have haccepts : accepts? (s, .proceed) = none := by
      simp [accepts?, reports?, hwriting, Client.reports, hw]
    refine h.writer rfl rfl haccepts ?_ ?_ (by simp [hpresent]) ?_
    · simp [Client.commit, hnone]
    · simp [hasks, Client.commit, hnone]
    · simp [Client.commit, hnone, hpresent]
  · rw [hw] at hm
    obtain rfl := Option.some.inj hm
    obtain ⟨head, hhead⟩ := Option.ne_none_iff_exists'.1 hsome
    have haccepts : accepts? (s, .proceed) = none := by
      simp [accepts?, reports?, hwriting, Client.reports, hw]
    exact h.writer rfl rfl haccepts rfl (by simp [hhead]) (by simp [hpresent]) fun _ => rfl
  · rw [hw] at hm
    obtain rfl := Option.some.inj hm
    obtain ⟨head, hhead⟩ := Option.ne_none_iff_exists'.1 hsome
    have haccepts : accepts? (s, .proceed) = some chunk := by
      simp [accepts?, reports?, hwriting, Client.reports, hw]
    refine ⟨_, h.act (m := .proceed) rfl rfl ?_ ?_ ?_ ?_ ?_⟩
    · simp [haccepts]
    · simp [hhead]
    · simp [hpresent]
    · simp
    · simp [hasks, ← h.abandoned, hthere, hroom]
  · rw [hw] at hm
    exact absurd hm (by simp)

theorem isIdle_iff : s.isIdle = true ↔ s.client.released = false ∧ s.writing = none := by
  simp [isIdle]

/-! ### What the connection does -/

theorem head?_cases {r : Reception} {c : Client} {head : Head} {r' : Reception}
    (h : r.head? c = some (head, r')) : r = .waiting ∧
      (c.head = some head ∧ r' = .streaming ∨
        c.head = none ∧ c.released = true ∧ head = (Plain.response .badGateway).head ∧
          r' = .canned [Plain.body .badGateway]) := by
  cases r with
  | waiting =>
    refine ⟨rfl, ?_⟩
    simp only [Reception.head?] at h
    cases hhead : c.head with
    | some head' => simp_all
    | none =>
      simp only [hhead, Option.ite_none_right_eq_some, Option.some.injEq, Prod.mk.injEq] at h
      exact .inr ⟨rfl, h.1, h.2.1.symm, h.2.2.symm⟩
  | _ => exact absurd h (by simp [Reception.head?])

/-- What the connection does is not seen by the writer. -/
theorem Kept.take (h : Kept capacity t s ch) {m : Move} {client : Client} {reception : Reception}
    {ch' : Channel} (hasked : asked (t ++ [(s, m)]) = asked t)
    (haccepted : accepted (t ++ [(s, m)]) = accepted t)
    (hclient : client = { s.client with link := .channel ch' })
    (hch : ch'.capacity = ch.capacity ∧ ch'.accepted = ch.accepted)
    (hroom : ch'.queue.length ≤ ch.queue.length)
    (hgone : ch'.abandoned = isGone { s with reception })
    (hholds : Holds (t ++ [(s, m)]) s.client.released ch'.queue reception)
    (htold : Told (t ++ [(s, m)]) { s with client, reception }) :
    Kept capacity (t ++ [(s, m)]) { s with client, reception } ch' := by
  subst hclient
  refine ⟨rfl, hch.1.trans h.bound, ?_, ?_, ?_, h.idle, hgone, Nat.le_trans hroom h.room, hholds,
    htold⟩
  · rw [hasked]
    exact h.head
  · rw [haccepted]
    exact hch.2.trans h.counter
  · rw [hasked, haccepted]
    exact h.quiet

theorem Kept.resolve (h : Kept capacity t s ch) (hm : s.move .resolve = some s') :
    Kept capacity (t ++ [(s, .resolve)]) s' ch := by
  obtain ⟨⟨head, reception⟩, htakes, rfl⟩ := Option.map_eq_some_iff.1 hm
  obtain ⟨hwaiting, hcases⟩ := head?_cases htakes
  have hasked : asked (t ++ [(s, .resolve)]) = asked t := by simp [asked_append, asks?]
  have haccepted : accepted (t ++ [(s, .resolve)]) = accepted t := by
    simp [accepted_append, accepts?, reports?]
  have hholds := h.holds
  rw [hwaiting] at hholds
  obtain ⟨hfirst, hqueue⟩ := hholds
  obtain ⟨hnone, hunended⟩ := h.told.early hfirst
  have hresolved : resolved (t ++ [(s, .resolve)]) = [head] := by
    simp [resolved_append, resolves?, htakes, hfirst]
  have htaken : taken (t ++ [(s, .resolve)]) = [] := by
    simp [taken_append, takes?, frame?, hnone]
  have hframes : frames (t ++ [(s, .resolve)]) = frames t := by simp [frames_append, frame?]
  have hsome (hsome : s.client.head = some head) : asked t ≠ [] := by
    rintro hnil
    rw [h.head, hnil] at hsome
    exact absurd hsome (by simp)
  refine h.take hasked haccepted (by rw [← h.link]) ⟨rfl, rfl⟩ (Nat.le_refl _) ?_ ?_
    ⟨.inr ⟨?_, ?_⟩, ?_, ?_, ?_⟩
  · rw [h.abandoned, isGone, hwaiting]
    rcases hcases with ⟨-, rfl⟩ | ⟨-, -, -, rfl⟩ <;> rfl
  · rcases hcases with ⟨hhead, rfl⟩ | ⟨hhead, hrel, -, rfl⟩
    · exact ⟨hasked ▸ hsome hhead, by simp [hresolved], by rw [htaken, haccepted, hqueue]; rfl⟩
    · refine ⟨?_, hrel, by simp [hresolved], by rw [htaken]; rfl⟩
      rw [hasked]
      exact List.head?_eq_none_iff.1 (h.head.symm.trans hhead)
  · rw [hresolved, answer, hasked, ← h.head]
    rcases hcases with ⟨hhead, -⟩ | ⟨hhead, -, rfl, -⟩ <;> rw [hhead] <;> rfl
  · rw [hasked]
    exact hcases.imp (fun hcase => hsome hcase.1) fun hcase => hcase.2.1
  · simp [hresolved]
  · rw [htaken]
    exact List.nil_prefix
  · rw [hframes]
    exact fun hfinish => absurd hfinish hunended

section Read

variable (t s)

theorem asked_read : asked (t ++ [(s, .read)]) = asked t := by simp [asked_append, asks?]

theorem accepted_read : accepted (t ++ [(s, .read)]) = accepted t := by
  simp [accepted_append, accepts?, reports?]

theorem resolved_read : resolved (t ++ [(s, .read)]) = resolved t := by
  simp [resolved_append, resolves?]

theorem answer_read : answer (t ++ [(s, .read)]) = answer t := by rw [answer, asked_read, answer]

theorem body_read : body (t ++ [(s, .read)]) = body t := by
  rw [body, asked_read, accepted_read, body]

theorem frames_read :
    frames (t ++ [(s, .read)]) = frames t ++ [(s.reception.next s.client).1] := by
  simp [frames_append, frame?]

theorem taken_read_chunk {data : Bytes} (h : (s.reception.next s.client).1 = .chunk data) :
    taken (t ++ [(s, .read)]) = taken t ++ [data] := by
  simp [taken_append, takes?, frame?, h, Frame.chunk?]

theorem taken_read {f : Frame} (h : (s.reception.next s.client).1 = f)
    (hf : ∀ data, f ≠ .chunk data) : taken (t ++ [(s, .read)]) = taken t := by
  subst h
  rw [taken_append, takes?, frame?, Option.bind_some]
  cases h : (s.reception.next s.client).1 with
  | chunk data => exact absurd h (hf data)
  | _ => simp [Frame.chunk?]

end Read

/-- The connection asks for a chunk, and there is none. -/
theorem Kept.noChunk (h : Kept capacity t s ch) {f : Frame}
    (hnext : s.reception.next s.client = (f, s.reception, s.client)) (hf : ∀ data, f ≠ .chunk data)
    (hfinish : f = .finish →
      resolved t ≠ [] ∧ s.client.released = true ∧ taken t = body t) :
    Kept capacity (t ++ [(s, .read)]) s ch := by
  have hframe : (s.reception.next s.client).1 = f := by rw [hnext]
  have htaken := taken_read t s hframe hf
  refine h.take (asked_read t s) (accepted_read t s) (by rw [← h.link]) ⟨rfl, rfl⟩
    (Nat.le_refl _) h.abandoned ?_ ⟨?_, ?_, ?_, ?_⟩
  · have hholds := h.holds
    cases hreception : s.reception <;> rw [hreception] at hholds <;>
      simpa only [Holds, asked_read, accepted_read, resolved_read, htaken] using hholds
  · rw [resolved_read, asked_read, answer_read]
    exact h.told.head
  · rw [resolved_read, htaken, frames_read, hframe]
    intro hfirst
    obtain ⟨hnone, hunended⟩ := h.told.early hfirst
    refine ⟨hnone, fun hmem => ?_⟩
    rcases List.mem_append.1 hmem with hmem | hmem
    · exact hunended hmem
    · exact (hfinish (List.mem_singleton.1 hmem).symm).1 hfirst
  · rw [htaken, body_read]
    exact h.told.chunks
  · rw [htaken, body_read, frames_read, hframe]
    intro hmem
    rcases List.mem_append.1 hmem with hmem | hmem
    · exact h.told.finished hmem
    · exact (hfinish (List.mem_singleton.1 hmem).symm).2

/-- The connection takes the next chunk of the response. -/
theorem Told.chunk (h : Told t s) {data : Bytes} {rest : List Bytes} {client : Client}
    {reception : Reception} (hnext : s.reception.next s.client = (.chunk data, reception, client))
    (hreleased : client.released = s.client.released) (hresolved : resolved t ≠ [])
    (hmore : taken t ++ data :: rest = body t) :
    Told (t ++ [(s, .read)]) { s with client, reception } := by
  have hframe : (s.reception.next s.client).1 = .chunk data := by rw [hnext]
  have htaken := taken_read_chunk t s hframe
  refine ⟨?_, ?_, ?_, ?_⟩
  · rw [resolved_read, asked_read, answer_read, hreleased]
    exact h.head
  · rw [resolved_read]
    exact fun hfirst => absurd hfirst hresolved
  · rw [htaken, body_read, ← hmore]
    exact ⟨rest, by simp⟩
  · rw [frames_read, hframe]
    intro hmem
    -- the body has not ended, for there is a chunk left
    rcases List.mem_append.1 hmem with hmem | hmem
    · have hall := (h.finished hmem).2
      rw [← hmore] at hall
      exact absurd hall (by simp)
    · exact absurd (List.mem_singleton.1 hmem) nofun

theorem move_read {f : Frame} {reception : Reception} {client : Client}
    (h : s.reception.next s.client = (f, reception, client)) :
    s.move .read = some { s with client, reception } := by
  rw [Sending.move, h]

theorem body_eq (h : asked t ≠ []) : body t = accepted t := if_neg h

theorem body_eq_error (h : asked t = []) : body t = [Plain.body .badGateway] := if_pos h

theorem Kept.read (h : Kept capacity t s ch) (hm : s.move .read = some s') :
    ∃ ch', Kept capacity (t ++ [(s, .read)]) s' ch' := by
  have hholds := h.holds
  cases hreception : s.reception with
  | waiting =>
    have hnext : s.reception.next s.client = (.gone, s.reception, s.client) := by
      simp only [hreception, Reception.next]
    obtain rfl := Option.some.inj ((move_read hnext).symm.trans hm)
    exact ⟨ch, h.noChunk hnext nofun nofun⟩
  | gone =>
    have hnext : s.reception.next s.client = (.gone, s.reception, s.client) := by
      simp only [hreception, Reception.next]
    obtain rfl := Option.some.inj ((move_read hnext).symm.trans hm)
    exact ⟨ch, h.noChunk hnext nofun nofun⟩
  | canned rest =>
    rw [hreception] at hholds
    obtain ⟨hnever, hreleased, hresolved, hall⟩ := hholds
    cases rest with
    | nil =>
      have hnext : s.reception.next s.client = (.finish, s.reception, s.client) := by
        simp only [hreception, Reception.next]
      obtain rfl := Option.some.inj ((move_read hnext).symm.trans hm)
      refine ⟨ch, h.noChunk hnext nofun fun _ => ⟨hresolved, hreleased, ?_⟩⟩
      rw [body_eq_error hnever, ← hall, List.append_nil]
    | cons data rest =>
      have hnext : s.reception.next s.client = (.chunk data, .canned rest, s.client) := by
        simp only [hreception, Reception.next]
      obtain rfl := Option.some.inj ((move_read hnext).symm.trans hm)
      refine ⟨ch, h.take (asked_read t s) (accepted_read t s) (by rw [← h.link]) ⟨rfl, rfl⟩
        (Nat.le_refl _) ?_ ⟨?_, hreleased, ?_, ?_⟩
        (h.told.chunk hnext rfl hresolved (hall.trans (body_eq_error hnever).symm))⟩
      · rw [h.abandoned, isGone, hreception]
        rfl
      · rw [asked_read]
        exact hnever
      · rw [resolved_read]
        exact hresolved
      · rw [taken_read_chunk t s (by rw [hnext]), List.append_assoc]
        exact hall
  | streaming =>
    rw [hreception] at hholds
    obtain ⟨hasked, hresolved, hall⟩ := hholds
    cases hqueue : ch.queue with
    | nil =>
      have hnext : s.reception.next s.client =
          (if s.client.released then .finish else .pending, s.reception, s.client) := by
        simp only [hreception, Reception.next, h.link, hqueue]
      obtain rfl := Option.some.inj ((move_read hnext).symm.trans hm)
      refine ⟨ch, h.noChunk hnext ?_ ?_⟩
      · split <;> exact nofun
      · intro hfinish
        refine ⟨hresolved, by simpa using hfinish, ?_⟩
        rw [body_eq hasked, ← hall, hqueue, List.append_nil]
    | cons data rest =>
      have hnext : s.reception.next s.client = (.chunk data, .streaming, { s.client with
          link := .channel { ch with queue := rest } }) := by
        simp only [hreception, Reception.next, h.link, hqueue]
      obtain rfl := Option.some.inj ((move_read hnext).symm.trans hm)
      rw [hqueue] at hall
      refine ⟨_, h.take (asked_read t s) (accepted_read t s) rfl ⟨rfl, rfl⟩ ?_ ?_ ⟨?_, ?_, ?_⟩
        (h.told.chunk hnext rfl hresolved (hall.trans (body_eq hasked).symm))⟩
      · simp [hqueue]
      · rw [isGone]
        exact h.abandoned.trans (by rw [isGone, hreception])
      · rw [asked_read]
        exact hasked
      · rw [resolved_read]
        exact hresolved
      · rw [taken_read_chunk t s (by rw [hnext]), accepted_read, List.append_assoc]
        exact hall

theorem Kept.leave (h : Kept capacity t s ch) (hm : s.move .leave = some s') :
    Kept capacity (t ++ [(s, .leave)]) s' { ch with abandoned := true, queue := [] } := by
  obtain rfl := Option.some.inj hm
  have hasked : asked (t ++ [(s, .leave)]) = asked t ++ [] := by simp [asked_append, asks?]
  have haccepted : accepted (t ++ [(s, .leave)]) = accepted t ++ [] := by
    simp [accepted_append, accepts?, reports?]
  have htold :
      Told (t ++ [(s, .leave)]) { s with client := s.client.abandon, reception := .gone } := by
    refine h.told.act ?_ ?_ ?_ hasked haccepted fun hrel => ⟨?_, rfl, rfl⟩
    · simp [resolved_append, resolves?]
    · simp [frames_append, frame?]
    · simp [taken_append, takes?, frame?]
    · simp [Client.abandon, h.link, hrel]
  rw [List.append_nil] at hasked haccepted
  exact h.take hasked haccepted (by simp [Client.abandon, h.link]) ⟨rfl, rfl⟩ (Nat.zero_le _) rfl
    rfl htold

/-- **Whatever happens keeps it.** -/
theorem Kept.move (h : Kept capacity t s ch) {m : Move} (hm : s.move m = some s') :
    ∃ ch', Kept capacity (t ++ [(s, m)]) s' ch' := by
  cases m with
  | edit f =>
    obtain ⟨hidle, hs⟩ := Option.ite_none_right_eq_some.1 hm
    obtain rfl := Option.some.inj hs
    obtain ⟨hpresent, hnone⟩ := isIdle_iff.1 hidle
    exact h.writer rfl rfl rfl rfl Option.or_none.symm (by simp [hpresent]) fun _ => hnone
  | commit status =>
    obtain ⟨hidle, hs⟩ := Option.ite_none_right_eq_some.1 hm
    obtain rfl := Option.some.inj hs
    obtain ⟨hpresent, hnone⟩ := isIdle_iff.1 hidle
    refine h.writer rfl rfl rfl ?_ ?_ (by simp [hpresent]) fun _ => hnone
    · rw [Client.commit]
      split <;> rfl
    · simp only [Client.commit, asks?]
      cases hhead : s.client.head <;> simp [hhead]
  | write chunk =>
    obtain ⟨hidle, hs⟩ := Option.ite_none_right_eq_some.1 hm
    obtain rfl := Option.some.inj hs
    obtain ⟨hpresent, -⟩ := isIdle_iff.1 hidle
    exact h.writer rfl rfl rfl rfl Option.or_none.symm (by simp [hpresent]) (by simp [hpresent])
  | proceed => exact h.proceed hm
  | giveUp =>
    obtain ⟨chunk, -, rfl⟩ := Option.map_eq_some_iff.1 hm
    exact h.writer rfl rfl rfl rfl Option.or_none.symm (fun hrel => ⟨hrel, rfl⟩) fun _ => rfl
  | release =>
    obtain ⟨-, hs⟩ := Option.ite_none_left_eq_some.1 hm
    obtain rfl := Option.some.inj hs
    exact h.writer rfl rfl rfl rfl Option.or_none.symm (fun _ => ⟨rfl, rfl⟩) fun _ => rfl
  | resolve => exact ⟨ch, h.resolve hm⟩
  | read => exact h.read hm
  | leave => exact ⟨_, h.leave hm⟩

theorem Kept.of_run (h : Run Sending.move (start capacity) t s) : ∃ ch, Kept capacity t s ch := by
  induction h with
  | start => exact ⟨_, kept_start⟩
  | next _ hm ih =>
    obtain ⟨ch, hkept⟩ := ih
    exact hkept.move hm

/-! ### What follows -/

theorem Kept.resolvable (h : Kept capacity t s ch) (hwaiting : s.reception = .waiting)
    (hknown : asked t ≠ [] ∨ s.client.released = true) :
    (s.reception.head? s.client).map (·.1) = some (answer t) := by
  rw [hwaiting, Reception.head?, answer, ← h.head]
  cases hhead : s.client.head with
  | some head => rfl
  | none =>
    have hnever : asked t = [] := List.head?_eq_none_iff.1 (h.head.symm.trans hhead)
    rw [hknown.resolve_left (not_not_intro hnever)]
    rfl

theorem Kept.pending (h : Kept capacity t s ch)
    (hpending : (s.reception.next s.client).1 = .pending) :
    s.client.released = false ∧ taken t = accepted t := by
  have hholds := h.holds
  cases hreception : s.reception with
  | waiting | gone => simp [hreception, Reception.next] at hpending
  | canned rest => cases rest <;> simp [hreception, Reception.next] at hpending
  | streaming =>
    rw [hreception] at hholds
    cases hqueue : ch.queue with
    | cons data rest => simp [hreception, Reception.next, h.link, hqueue] at hpending
    | nil =>
      refine ⟨?_, by rw [← hholds.2.2, hqueue, List.append_nil]⟩
      simpa [hreception, Reception.next, h.link, hqueue] using hpending

theorem Kept.reported (h : Kept capacity t s ch) {m : Move} {chunk : Bytes}
    {failure : Option IoError} (hreports : reports? (s, m) = some (chunk, failure)) :
    failure = if s.isGone then some .clientGone else none := by
  cases m with
  | proceed =>
    obtain ⟨chunk', -, hreports⟩ := Option.bind_eq_some_iff.1 hreports
    rw [← h.abandoned]
    rcases write_channel h.link chunk' with
      ⟨-, hw⟩ | ⟨-, ⟨hgone, hw⟩ | ⟨hthere, -, hw⟩ | ⟨-, -, hw⟩⟩
    · simp [Client.reports, hw] at hreports
    · simp only [Client.reports, hw, Option.map_some, Option.some.injEq, Prod.mk.injEq] at hreports
      rw [hgone, ← hreports.2, if_pos rfl]
    · simp only [Client.reports, hw, Option.map_some, Option.some.injEq, Prod.mk.injEq] at hreports
      rw [hthere, ← hreports.2, if_neg (by simp)]
    · simp [Client.reports, hw] at hreports
  | _ => simp [reports?] at hreports

theorem isGone_move {m : Move} (hm : s.move m = some s') (hgone : s.isGone = true) :
    s'.isGone = true := by
  cases hreception : s.reception with
  | gone =>
    cases m with
    | edit | commit | write =>
      obtain ⟨-, hs⟩ := Option.ite_none_right_eq_some.1 hm
      exact Option.some.inj hs ▸ hgone
    | proceed =>
      obtain ⟨chunk, -, hs⟩ := Option.bind_eq_some_iff.1 hm
      split at hs
      · exact absurd hs (by simp)
      · exact Option.some.inj hs ▸ hgone
      · exact Option.some.inj hs ▸ hgone
    | giveUp =>
      obtain ⟨chunk, -, rfl⟩ := Option.map_eq_some_iff.1 hm
      exact hgone
    | release =>
      obtain ⟨-, hs⟩ := Option.ite_none_left_eq_some.1 hm
      exact Option.some.inj hs ▸ hgone
    | resolve => simp [Sending.move, hreception, Reception.head?] at hm
    | read =>
      have hnext : s.reception.next s.client = (.gone, .gone, s.client) := by
        simp only [hreception, Reception.next]
      obtain rfl := Option.some.inj ((move_read hnext).symm.trans hm)
      rfl
    | leave => exact Option.some.inj hm ▸ rfl
  | _ => simp [isGone, hreception] at hgone

theorem Kept.bytesSent (h : Kept capacity t s ch) :
    s.client.bytesSent = ((accepted t).map List.length).sum := by
  rw [Client.bytesSent, h.link]
  exact h.counter

/-- A connection that has gone away stays away, and the counter stays as it is. -/
theorem Kept.stays (h : Kept capacity t s ch) {m : Move} (hm : s.move m = some s')
    (hgone : s.isGone = true) :
    s'.isGone = true ∧ s'.client.bytesSent = s.client.bytesSent := by
  refine ⟨isGone_move hm hgone, ?_⟩
  obtain ⟨ch', h'⟩ := h.move hm
  have hnone : accepts? (s, m) = none := by
    rw [accepts?]
    cases hreports : reports? (s, m) with
    | none => rfl
    | some r =>
      have hfailure := h.reported hreports
      rw [if_pos hgone] at hfailure
      rw [Option.bind_some, hfailure, if_neg (by simp)]
  rw [h.bytesSent, h'.bytesSent, accepted_append, hnone, Option.toList_none, List.append_nil]

theorem Kept.held (h : Kept capacity t s ch) (hwriting : s.writing.isSome = true)
    (hstuck : s.move .proceed = none) :
    s.isGone = false ∧ (accepted t).length = (taken t).length + max 1 capacity := by
  obtain ⟨chunk, hchunk⟩ := Option.isSome_iff_exists.1 hwriting
  rw [Sending.move, hchunk, Option.bind_some] at hstuck
  rcases write_channel h.link chunk with
    ⟨-, hw⟩ | ⟨hsome, ⟨-, hw⟩ | ⟨-, -, hw⟩ | ⟨hthere, hfull, -⟩⟩
  · simp [hw] at hstuck
  · simp [hw] at hstuck
  · simp [hw] at hstuck
  have hgone : s.isGone = false := h.abandoned ▸ hthere
  refine ⟨hgone, ?_⟩
  have hroom := h.room
  have hlength : ch.queue.length = max 1 capacity := by
    simp only [Channel.hasRoom, h.bound, decide_eq_false_iff_not] at hfull
    omega
  have hholds := h.holds
  cases hreception : s.reception with
  | waiting =>
    rw [hreception] at hholds
    rw [← hholds.2, (h.told.early hholds.1).1, hlength, List.length_nil, Nat.zero_add]
  | streaming =>
    rw [hreception] at hholds
    rw [← hholds.2.2, List.length_append, hlength]
  | canned rest =>
    rw [hreception] at hholds
    exact absurd (h.idle hholds.2.1) (by simp [hchunk])
  | gone => simp [isGone, hreception] at hgone

end Kept

/-- **What a connection gets is the response that its writer has written**, whatever the room of the
channel, the writer's calls, the connection's, and the order of the two. -/
theorem writer_refines {capacity : Nat} {t : List (Sending × Move)} {s : Sending}
    (hrun : Run Sending.move (start capacity) t s) : Refines capacity t s := by
  obtain ⟨ch, h⟩ := Kept.of_run hrun
  refine ⟨h.told.head, h.resolvable, h.told.chunks, h.told.finished, h.pending, h.bytesSent, ?_, ?_,
    h.held⟩
  · intro p hp chunk failure hreports
    obtain ⟨t₁, -, -, -, hbefore, -⟩ := hrun.split hp
    obtain ⟨ch₁, h₁⟩ := Kept.of_run hbefore
    exact h₁.reported hreports
  · intro p hp hgone
    refine hrun.since (P := fun _ s => s.isGone = true ∧
      s.client.bytesSent = p.1.client.bytesSent) hp ?_ ?_
    · intro t₁ s₂ hbefore hm
      obtain ⟨ch₁, h₁⟩ := Kept.of_run hbefore
      rcases hgone with hgone | hleave
      · exact h₁.stays hm hgone
      · rw [hleave] at hm
        obtain rfl := Option.some.inj hm
        exact ⟨rfl, by simp [Client.abandon, Client.bytesSent, h₁.link]⟩
    · intro t₁ s₂ m s₃ hbefore _ ⟨hgone₂, hsame⟩ hm
      obtain ⟨ch₁, h₁⟩ := Kept.of_run hbefore
      obtain ⟨hgone₃, hsent⟩ := h₁.stays hm hgone₂
      exact ⟨hgone₃, hsent.trans hsame⟩

/-- A head with a field, two chunks of which one is taken, and a third after the connection has gone
away. -/
def leavesBetween : List Move :=
  [.edit (·.insert .contentType [1]), .write [1], .proceed, .proceed, .edit (·.remove .contentType),
    .commit .badGateway, .resolve, .read, .write [2, 2], .proceed, .leave, .write [3], .proceed,
    .release]

/-- The head is the one of the first write, with the field that was removed later; the first chunk
has been taken, the second is lost, and the third has been refused. -/
theorem writer_refines_leavesBetween :
    ∃ t s, Run Sending.move (start 0) t s ∧ Refines 0 t s ∧
      resolved t = [⟨.ok, Headers.insert {} .contentType [1]⟩] ∧ taken t = [[1]] ∧
      body t = [[1], [2, 2]] ∧ s.client.bytesSent = 3 ∧
      t.filterMap reports? = [([1], none), ([2, 2], none), ([3], some .clientGone)] := by
  let r := (follow Sending.move (start 0) leavesBetween).get rfl
  have hrun : Run Sending.move (start 0) r.1 r.2 := run_of_follow (Option.some_get _).symm
  exact ⟨r.1, r.2, hrun, writer_refines hrun, rfl, rfl, rfl, rfl, rfl⟩

end Sending
end EdgeCache
