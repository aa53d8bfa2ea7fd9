import Mathlib
import Serai.Primitives
/-
  Serai.MessageQueue.Queue — the message queue (message-queue/src: `Queue` of queue.rs, and
  main.rs's `queue_message`, `get_next_message`, `ack_message` and the queues it registers).

  The service keeps one queue per (from, to) pair it registered: from the coordinator to
  every external network's processor, and from each processor whose key was set to the
  coordinator. A queue is its `message_count`, its `last_acknowledged` and its messages by
  id, in the database beside the `intent_seen` keys. The service runs one task at a time and
  each handler runs to its end without an await, so a run is a sequence of requests, each
  handled whole; a panic exits the process, which ends the run (`none`). Signature checks
  are parameters (`Config`).

  Proved:
  - `run_wf`: in every state a run reaches, each queue holds exactly the ids below its
    count, and the message at an id carries that id and its sender; so `get_message`'s
    `assert_eq!` never fires (`getMessage_of_wf`) and `get_next_message` returns the
    message after the last acknowledged (`getNextMessage_of_wf`).
  - `run_stores`: a queue holds, at ids 0, 1, 2, ..., the messages of the queue requests
    of the run whose intent no earlier one had, in the order they came (`firstOfEachIntent`);
    re-sent requests store nothing, and no intent is stored twice (`nodup_firstOfEachIntent`).
  - `ack_skips_message`: `ack_message` stores whatever id the recipient signs. After two
    messages are queued, an ack of id 1 moves `last_acknowledged` from none to 1: message 0
    was never returned by `next` nor acknowledged, and `next` never returns it.
-/

namespace Serai.MessageQueue

inductive Service where
  | processor (network : NetworkId)
  | coordinator
  deriving DecidableEq, Repr

def Service.isCoordinator : Service → Bool
  | .coordinator => true
  | .processor _ => false

structure Metadata where
  from' : Service
  to' : Service
  intent : List UInt8

structure QueuedMessage (Sig : Type) where
  from' : Service
  id : ℕ
  msg : List UInt8
  sig : Sig

/-- One queue's entries: `message_count` (missing reads 0), `last_acknowledged`, and the
    `message` at each id. Ids are `u64`s the runs never wrap. -/
structure Queue (Sig : Type) where
  messageCount : ℕ
  lastAcknowledged : Option ℕ
  messages : ℕ → Option (QueuedMessage Sig)

/-- The database: each queue's entries, and the `intent_seen` keys. -/
structure Db (Sig : Type) where
  queues : Service × Service → Queue Sig
  intentSeen : Service × Service × List UInt8 → Bool

variable {Sig : Type}

def Db.empty : Db Sig := ⟨fun _ => ⟨0, none, fun _ => none⟩, fun _ => false⟩

/-- What the service starts with: the networks whose processor key was set (`BITCOIN_KEY`,
    ...), and `SchnorrSignature::verify` of a queue request under the sender's key and of an
    ack under the recipient's. -/
structure Config (Sig : Type) where
  registered : NetworkId → Bool
  verifyQueue : Metadata → List UInt8 → Sig → Bool
  verifyAck : Service → Service → ℕ → Sig → Bool

variable (cfg : Config Sig)

/-- `KEYS`: the coordinator's, and each external network's processor whose key was set. -/
def Config.hasKey : Service → Bool
  | .coordinator => true
  | .processor network => network ≠ .serai && cfg.registered network

/-- `QUEUES`: the coordinator's registration adds a queue to every external network's
    processor; a processor's adds its queue to the coordinator. -/
def Config.hasQueue : Service → Service → Bool
  | .coordinator, .processor network => network ≠ .serai
  | .processor network, .coordinator => network ≠ .serai && cfg.registered network
  | _, _ => false

/-! ## `Queue` -/

/-- `Queue::queue_message`: the message's id is the count, and the count moves past it. -/
def Queue.queueMessage (q : Queue Sig) (msg : QueuedMessage Sig) : Queue Sig × ℕ :=
  let id := q.messageCount
  ({ q with messages := Function.update q.messages id (some { msg with id := id }), messageCount := id + 1 }, id)

/-- `Queue::get_message`; `none` is the panic of its `assert_eq!` on the stored id. -/
def Queue.getMessage (q : Queue Sig) (id : ℕ) : Option (Option (QueuedMessage Sig)) :=
  match q.messages id with
  | none => some none
  | some msg => if msg.id = id then some (some msg) else none

/-- `Queue::ack_message`. -/
def Queue.ackMessage (q : Queue Sig) (id : ℕ) : Queue Sig := { q with lastAcknowledged := some id }

/-! ## The handlers -/

/-- `queue_message`; `none` is a panic. A message whose intent was seen is dropped with its
    transaction. -/
def queueMessage (db : Db Sig) (metadata : Metadata) (msg : List UInt8) (sig : Sig) : Option (Db Sig) :=
  if !cfg.hasKey metadata.from' then none else
  if !cfg.verifyQueue metadata msg sig then none else
  if !(metadata.from'.isCoordinator ^^ metadata.to'.isCoordinator) then none else
  if db.intentSeen (metadata.from', metadata.to', metadata.intent) then some db else
  if !cfg.hasQueue metadata.from' metadata.to' then none else
  -- the id `u64::MAX` is a placeholder `Queue::queue_message` overwrites
  let queued := (db.queues (metadata.from', metadata.to')).queueMessage ⟨metadata.from', 2 ^ 64 - 1, msg, sig⟩
  some { queues := Function.update db.queues (metadata.from', metadata.to') queued.1,
         intentSeen := Function.update db.intentSeen (metadata.from', metadata.to', metadata.intent) true }

/-- `get_next_message`: the message after the last acknowledged one, or the first. -/
def getNextMessage (db : Db Sig) (from' to' : Service) : Option (Option (QueuedMessage Sig)) :=
  if !cfg.hasQueue from' to' then none else
  let q := db.queues (from', to')
  q.getMessage ((q.lastAcknowledged.map (· + 1)).getD 0)

/-- `ack_message`: the recipient's signature over the id, then the id is stored. -/
def ackMessage (db : Db Sig) (from' to' : Service) (id : ℕ) (sig : Sig) : Option (Db Sig) :=
  if !cfg.hasKey to' then none else
  if !cfg.verifyAck to' from' id sig then none else
  if !cfg.hasQueue from' to' then none else
  some { db with queues := Function.update db.queues (from', to') ((db.queues (from', to')).ackMessage id) }

inductive Request (Sig : Type) where
  | queue (metadata : Metadata) (msg : List UInt8) (sig : Sig)
  | next (from' to' : Service)
  | ack (from' to' : Service) (id : ℕ) (sig : Sig)

inductive Response (Sig : Type) where
  | queued
  | next (msg : Option (QueuedMessage Sig))
  | acked

/-- One request of `MessageQueueRequest`, handled whole. -/
def handle (db : Db Sig) : Request Sig → Option (Response Sig × Db Sig)
  | .queue metadata msg sig => (queueMessage cfg db metadata msg sig).map fun db' => (.queued, db')
  | .next from' to' => (getNextMessage cfg db from' to').map fun msg => (.next msg, db)
  | .ack from' to' id sig => (ackMessage cfg db from' to' id sig).map fun db' => (.acked, db')

/-- Requests handled one after the other, until one panics. -/
def run : Db Sig → List (Request Sig) → Option (List (Response Sig) × Db Sig)
  | db, [] => some ([], db)
  | db, r :: rs => (handle cfg db r).bind fun p => (run p.2 rs).map fun q => (p.1 :: q.1, q.2)

/-! ## What each handler does -/

variable {cfg}

theorem queueMessage_cases {db db' : Db Sig} {metadata : Metadata} {msg : List UInt8} {sig : Sig}
    (h : queueMessage cfg db metadata msg sig = some db') :
    (db.intentSeen (metadata.from', metadata.to', metadata.intent) = true ∧ db' = db) ∨
    (db.intentSeen (metadata.from', metadata.to', metadata.intent) = false ∧
      cfg.hasQueue metadata.from' metadata.to' = true ∧
      db' = { queues := Function.update db.queues (metadata.from', metadata.to')
                ((db.queues (metadata.from', metadata.to')).queueMessage ⟨metadata.from', 2 ^ 64 - 1, msg, sig⟩).1,
              intentSeen := Function.update db.intentSeen (metadata.from', metadata.to', metadata.intent) true }) := by
  unfold queueMessage at h
  split_ifs at h with hkey hsig hxor hseen hqueue
  · exact .inl ⟨hseen, (Option.some.inj h).symm⟩
  · refine .inr ⟨by simpa using hseen, by simpa using hqueue, (Option.some.inj h).symm⟩

theorem ackMessage_eq {db db' : Db Sig} {from' to' : Service} {id : ℕ} {sig : Sig}
    (h : ackMessage cfg db from' to' id sig = some db') :
    cfg.hasQueue from' to' = true ∧
      db' = { db with queues := Function.update db.queues (from', to') ((db.queues (from', to')).ackMessage id) } := by
  unfold ackMessage at h
  split_ifs at h with hkey hsig hqueue
  exact ⟨by simpa using hqueue, (Option.some.inj h).symm⟩

theorem handle_cases {db db' : Db Sig} {r : Request Sig} {resp : Response Sig} (h : handle cfg db r = some (resp, db')) :
    db' = db ∨
    (∃ metadata msg sig, r = .queue metadata msg sig ∧
      db.intentSeen (metadata.from', metadata.to', metadata.intent) = false ∧
      cfg.hasQueue metadata.from' metadata.to' = true ∧
      db' = { queues := Function.update db.queues (metadata.from', metadata.to')
                ((db.queues (metadata.from', metadata.to')).queueMessage ⟨metadata.from', 2 ^ 64 - 1, msg, sig⟩).1,
              intentSeen := Function.update db.intentSeen (metadata.from', metadata.to', metadata.intent) true }) ∨
    (∃ from' to' id sig, r = .ack from' to' id sig ∧
      db' = { db with queues := Function.update db.queues (from', to') ((db.queues (from', to')).ackMessage id) }) := by
  cases r with
  | queue metadata msg sig =>
    obtain ⟨db₁, hq, he⟩ := Option.map_eq_some_iff.mp h
    cases he
    rcases queueMessage_cases hq with ⟨-, rfl⟩ | ⟨hseen, hqueue, rfl⟩
    · exact .inl rfl
    · exact .inr (.inl ⟨metadata, msg, sig, rfl, hseen, hqueue, rfl⟩)
  | next from' to' =>
    obtain ⟨msg, -, he⟩ := Option.map_eq_some_iff.mp h
    cases he
    exact .inl rfl
  | ack from' to' id sig =>
    obtain ⟨db₁, ha, he⟩ := Option.map_eq_some_iff.mp h
    cases he
    exact .inr (.inr ⟨from', to', id, sig, rfl, (ackMessage_eq ha).2⟩)

/-! ## The queues' ids -/

/-- A queue's entries hold exactly the ids below its count, each message with its own id and
    the queue's sender. -/
def Queue.Wf (from' : Service) (q : Queue Sig) : Prop :=
  (∀ id, (q.messages id).isSome ↔ id < q.messageCount) ∧
    ∀ id msg, q.messages id = some msg → msg.id = id ∧ msg.from' = from'

def Db.Wf (db : Db Sig) : Prop := ∀ from' to', (db.queues (from', to')).Wf from'

theorem Db.wf_empty : (Db.empty : Db Sig).Wf := by
  intro from' to'
  refine ⟨fun id => ?_, fun id msg h => ?_⟩
  · simp [Db.empty]
  · cases h

theorem Queue.queueMessage_wf {from' : Service} {q : Queue Sig} (hq : q.Wf from') {msg : QueuedMessage Sig}
    (hfrom : msg.from' = from') : (q.queueMessage msg).1.Wf from' := by
  obtain ⟨hids, hmsgs⟩ := hq
  refine ⟨fun id => ?_, fun id m h => ?_⟩
  · simp only [Queue.queueMessage]
    by_cases hid : id = q.messageCount
    · subst hid
      simp
    · rw [Function.update_of_ne hid, hids id]
      omega
  · simp only [Queue.queueMessage] at h
    by_cases hid : id = q.messageCount
    · subst hid
      rw [Function.update_self] at h
      cases h
      exact ⟨rfl, hfrom⟩
    · rw [Function.update_of_ne hid] at h
      exact hmsgs id m h

theorem Queue.ackMessage_wf {from' : Service} {q : Queue Sig} (hq : q.Wf from') (id : ℕ) :
    (q.ackMessage id).Wf from' := hq

theorem handle_wf {db db' : Db Sig} {r : Request Sig} {resp : Response Sig} (hwf : db.Wf)
    (h : handle cfg db r = some (resp, db')) : db'.Wf := by
  rcases handle_cases h with rfl | ⟨metadata, msg, sig, -, -, -, rfl⟩ | ⟨from', to', id, sig, -, rfl⟩
  · exact hwf
  · intro f t
    by_cases hft : (f, t) = (metadata.from', metadata.to')
    · simp only [hft, Function.update_self]
      obtain ⟨rfl, -⟩ := Prod.mk.inj hft
      exact Queue.queueMessage_wf (hwf _ _) rfl
    · simp only [Function.update_of_ne hft]
      exact hwf f t
  · intro f t
    by_cases hft : (f, t) = (from', to')
    · simp only [hft, Function.update_self]
      obtain ⟨rfl, -⟩ := Prod.mk.inj hft
      exact Queue.ackMessage_wf (hwf _ _) id
    · simp only [Function.update_of_ne hft]
      exact hwf f t

theorem run_wf : ∀ {db db' : Db Sig} {rs : List (Request Sig)} {resps : List (Response Sig)}, db.Wf →
    run cfg db rs = some (resps, db') → db'.Wf
  | _, _, [], _, hwf, h => by
    cases h
    exact hwf
  | db, db', r :: rs, resps, hwf, h => by
    obtain ⟨p, hp, hrest⟩ := Option.bind_eq_some_iff.mp h
    obtain ⟨q, hq, hqe⟩ := Option.map_eq_some_iff.mp hrest
    obtain ⟨-, rfl⟩ := Prod.mk.inj hqe
    exact run_wf (handle_wf hwf hp) hq

theorem getMessage_of_wf {from' : Service} {q : Queue Sig} (hq : q.Wf from') (id : ℕ) :
    q.getMessage id = some (q.messages id) := by
  unfold Queue.getMessage
  cases hm : q.messages id with
  | none => rfl
  | some msg => exact if_pos (hq.2 id msg hm).1

theorem getNextMessage_of_wf {db : Db Sig} (hwf : db.Wf) {from' to' : Service} (hq : cfg.hasQueue from' to' = true) :
    getNextMessage cfg db from' to' =
      some ((db.queues (from', to')).messages (((db.queues (from', to')).lastAcknowledged.map (· + 1)).getD 0)) := by
  rw [getNextMessage, if_neg (by simp [hq])]
  exact getMessage_of_wf (hwf from' to') _

/-! ## Exactly once per intent, in order -/

/-- The queue requests of `rs` from `from'` to `to'`: each one's intent, message and signature. -/
def queueRequests (from' to' : Service) : List (Request Sig) → List (List UInt8 × List UInt8 × Sig)
  | [] => []
  | .queue metadata msg sig :: rs =>
    if metadata.from' = from' ∧ metadata.to' = to' then (metadata.intent, msg, sig) :: queueRequests from' to' rs
    else queueRequests from' to' rs
  | _ :: rs => queueRequests from' to' rs

/-- Of requests in order, those whose intent neither an earlier one nor `seen` has. -/
def firstOfEachIntent {α : Type} (seen : List (List UInt8)) : List (List UInt8 × α) → List (List UInt8 × α)
  | [] => []
  | x :: rest => if x.1 ∈ seen then firstOfEachIntent seen rest else x :: firstOfEachIntent (x.1 :: seen) rest

theorem queueRequests_append (from' to' : Service) (rs rs' : List (Request Sig)) :
    queueRequests from' to' (rs ++ rs') = queueRequests from' to' rs ++ queueRequests from' to' rs' := by
  induction rs with
  | nil => rfl
  | cons r rs ih =>
    cases r with
    | queue metadata msg sig =>
      simp only [List.cons_append, queueRequests]
      split_ifs <;> simp [ih]
    | next f t => simpa [queueRequests] using ih
    | ack f t id sig => simpa [queueRequests] using ih

theorem firstOfEachIntent_concat {α : Type} (x : List UInt8 × α) :
    ∀ (seen : List (List UInt8)) (l : List (List UInt8 × α)),
      firstOfEachIntent seen (l ++ [x]) =
        firstOfEachIntent seen l ++ if x.1 ∈ seen ∨ x.1 ∈ l.map (·.1) then [] else [x]
  | seen, [] => by
    by_cases hx : x.1 ∈ seen <;> simp [firstOfEachIntent, hx]
  | seen, y :: l => by
    by_cases hy : y.1 ∈ seen
    · have hiff : x.1 ∈ seen ∨ x.1 ∈ (y :: l).map (·.1) ↔ x.1 ∈ seen ∨ x.1 ∈ l.map (·.1) := by
        simp only [List.map_cons, List.mem_cons]
        constructor
        · rintro (h | h | h)
          · exact .inl h
          · exact .inl (h ▸ hy)
          · exact .inr h
        · rintro (h | h)
          · exact .inl h
          · exact .inr (.inr h)
      simp only [List.cons_append, firstOfEachIntent, if_pos hy, firstOfEachIntent_concat x seen l, hiff]
    · have hiff : x.1 ∈ y.1 :: seen ∨ x.1 ∈ l.map (·.1) ↔ x.1 ∈ seen ∨ x.1 ∈ (y :: l).map (·.1) := by
        simp only [List.map_cons, List.mem_cons]
        tauto
      simp only [List.cons_append, firstOfEachIntent, if_neg hy, firstOfEachIntent_concat x (y.1 :: seen) l, hiff]

theorem nodup_firstOfEachIntent {α : Type} :
    ∀ (seen : List (List UInt8)) (l : List (List UInt8 × α)),
      ((firstOfEachIntent seen l).map (·.1)).Nodup ∧ ∀ x ∈ firstOfEachIntent seen l, x.1 ∉ seen
  | _, [] => ⟨List.nodup_nil, fun _ h => nomatch h⟩
  | seen, y :: l => by
    by_cases hy : y.1 ∈ seen
    · simp only [firstOfEachIntent, if_pos hy]
      exact nodup_firstOfEachIntent seen l
    · obtain ⟨hnodup, hnew⟩ := nodup_firstOfEachIntent (y.1 :: seen) l
      simp only [firstOfEachIntent, if_neg hy, List.map_cons, List.nodup_cons, List.mem_cons]
      refine ⟨⟨fun hmem => ?_, hnodup⟩, ?_⟩
      · obtain ⟨z, hz, hzy⟩ := List.mem_map.mp hmem
        exact hnew z hz (hzy ▸ List.mem_cons_self)
      · rintro x (rfl | hx)
        · exact hy
        · exact fun hs => hnew x hx (List.mem_cons_of_mem _ hs)

/-- The queue from `from'` to `to'` stores, at ids 0, 1, ..., the first of each intent among
    `reqs`, and the intents seen there are those of `reqs`. -/
def Stores (db : Db Sig) (from' to' : Service) (reqs : List (List UInt8 × List UInt8 × Sig)) : Prop :=
  (∀ intent, db.intentSeen (from', to', intent) = true ↔ intent ∈ reqs.map (·.1)) ∧
    (db.queues (from', to')).messageCount = (firstOfEachIntent [] reqs).length ∧
    ∀ id, (db.queues (from', to')).messages id =
      ((firstOfEachIntent [] reqs)[id]?).map fun x => ⟨from', id, x.2.1, x.2.2⟩

theorem stores_empty (from' to' : Service) : Stores (Db.empty : Db Sig) from' to' [] :=
  ⟨fun _ => by simp [Db.empty], rfl, fun _ => rfl⟩

theorem stores_of_eq {db db' : Db Sig} {from' to' : Service} {reqs : List (List UInt8 × List UInt8 × Sig)}
    (hs : Stores db from' to' reqs) (hq : (db'.queues (from', to')).messageCount = (db.queues (from', to')).messageCount)
    (hm : (db'.queues (from', to')).messages = (db.queues (from', to')).messages)
    (hi : ∀ intent, db'.intentSeen (from', to', intent) = db.intentSeen (from', to', intent)) :
    Stores db' from' to' reqs :=
  ⟨fun intent => hi intent ▸ hs.1 intent, hq.trans hs.2.1, fun id => hm ▸ hs.2.2 id⟩

theorem stores_queue {db : Db Sig} {metadata : Metadata} {msg : List UInt8} {sig : Sig}
    {reqs : List (List UInt8 × List UInt8 × Sig)} (hs : Stores db metadata.from' metadata.to' reqs)
    (hseen : db.intentSeen (metadata.from', metadata.to', metadata.intent) = false) :
    Stores { queues := Function.update db.queues (metadata.from', metadata.to')
                ((db.queues (metadata.from', metadata.to')).queueMessage ⟨metadata.from', 2 ^ 64 - 1, msg, sig⟩).1,
              intentSeen := Function.update db.intentSeen (metadata.from', metadata.to', metadata.intent) true }
      metadata.from' metadata.to' (reqs ++ [(metadata.intent, msg, sig)]) := by
  obtain ⟨hintents, hcount, hmsgs⟩ := hs
  have hnew : metadata.intent ∉ reqs.map (·.1) := fun h => by simp [(hintents _).mpr h] at hseen
  have hkept : firstOfEachIntent [] (reqs ++ [(metadata.intent, msg, sig)]) =
      firstOfEachIntent [] reqs ++ [(metadata.intent, msg, sig)] := by
    rw [firstOfEachIntent_concat, if_neg (by simpa using hnew)]
  refine ⟨fun intent => ?_, ?_, fun id => ?_⟩
  · by_cases hi : intent = metadata.intent
    · subst hi
      simp
    · have hne : (metadata.from', metadata.to', intent) ≠ (metadata.from', metadata.to', metadata.intent) := by
        simp [hi]
      simp only [Function.update_of_ne hne, hintents, List.map_append, List.mem_append, List.map_cons,
        List.map_nil, List.mem_singleton, hi, or_false]
  · simp [Queue.queueMessage, hkept, hcount]
  · simp only [Function.update_self, Queue.queueMessage, hkept]
    by_cases hid : id = (db.queues (metadata.from', metadata.to')).messageCount
    · subst hid
      rw [Function.update_self, hcount, List.getElem?_concat_length]
      rfl
    · rw [Function.update_of_ne hid, hmsgs]
      congr 1
      rcases Nat.lt_or_gt_of_ne hid with hlt | hgt
      · rw [List.getElem?_append_left (by omega)]
      · rw [List.getElem?_eq_none (by omega), List.getElem?_eq_none (by rw [List.length_append, List.length_singleton]; omega)]

theorem handle_stores {db db' : Db Sig} {r : Request Sig} {resp : Response Sig} {from' to' : Service}
    {reqs : List (List UInt8 × List UInt8 × Sig)} (hs : Stores db from' to' reqs) (h : handle cfg db r = some (resp, db')) :
    Stores db' from' to' (reqs ++ queueRequests from' to' [r]) := by
  cases r with
  | queue metadata msg sig =>
    obtain ⟨db₁, hq, he⟩ := Option.map_eq_some_iff.mp h
    cases he
    by_cases hft : metadata.from' = from' ∧ metadata.to' = to'
    · obtain ⟨rfl, rfl⟩ := hft
      have hreq : queueRequests metadata.from' metadata.to' [.queue metadata msg sig] = [(metadata.intent, msg, sig)] := by
        simp [queueRequests]
      rw [hreq]
      rcases queueMessage_cases hq with ⟨hseen, rfl⟩ | ⟨hseen, -, rfl⟩
      · -- a re-sent intent stores nothing
        have hold : metadata.intent ∈ reqs.map (·.1) := (hs.1 _).mp hseen
        have hkept : firstOfEachIntent [] (reqs ++ [(metadata.intent, msg, sig)]) = firstOfEachIntent [] reqs := by
          rw [firstOfEachIntent_concat, if_pos (.inr hold), List.append_nil]
        refine ⟨fun intent => ?_, hkept ▸ hs.2.1, fun id => hkept ▸ hs.2.2 id⟩
        rw [hs.1 intent, List.map_append, List.mem_append]
        constructor
        · exact .inl
        · rintro (h | h)
          · exact h
          · simp only [List.map_cons, List.map_nil, List.mem_singleton] at h
            exact h ▸ hold
      · exact stores_queue hs hseen
    · have hreq : queueRequests from' to' [.queue metadata msg sig] = [] := by simp [queueRequests, hft]
      rw [hreq, List.append_nil]
      rcases queueMessage_cases hq with ⟨-, rfl⟩ | ⟨-, -, rfl⟩
      · exact hs
      · have hne : (from', to') ≠ (metadata.from', metadata.to') := fun he =>
          hft ⟨(Prod.mk.inj he).1.symm, (Prod.mk.inj he).2.symm⟩
        refine stores_of_eq hs (by simp [Function.update_of_ne hne]) (by simp [Function.update_of_ne hne]) fun intent => ?_
        have hne' : (from', to', intent) ≠ (metadata.from', metadata.to', metadata.intent) := fun he =>
          hne (by simp only [Prod.mk.injEq] at he ⊢; exact ⟨he.1, he.2.1⟩)
        simp [Function.update_of_ne hne']
  | next f t =>
    obtain ⟨msg, -, he⟩ := Option.map_eq_some_iff.mp h
    cases he
    simpa [queueRequests] using hs
  | ack f t id sig =>
    obtain ⟨db₁, ha, he⟩ := Option.map_eq_some_iff.mp h
    cases he
    rw [(ackMessage_eq ha).2, show queueRequests from' to' [.ack f t id sig] = [] from rfl, List.append_nil]
    -- an ack moves `last_acknowledged` only
    by_cases hft : (from', to') = (f, t)
    · obtain ⟨rfl, rfl⟩ := Prod.mk.inj hft
      exact stores_of_eq hs (by simp [Queue.ackMessage]) (by simp [Queue.ackMessage]) fun _ => rfl
    · exact stores_of_eq hs (by simp [Function.update_of_ne hft]) (by simp [Function.update_of_ne hft]) fun _ => rfl

theorem run_stores {from' to' : Service} : ∀ {db db' : Db Sig} {rs : List (Request Sig)} {resps : List (Response Sig)}
    {reqs : List (List UInt8 × List UInt8 × Sig)}, Stores db from' to' reqs →
      run cfg db rs = some (resps, db') → Stores db' from' to' (reqs ++ queueRequests from' to' rs)
  | _, _, [], _, _, hs, h => by
    cases h
    simpa [queueRequests] using hs
  | _, _, r :: rs, _, _, hs, h => by
    obtain ⟨p, hp, hrest⟩ := Option.bind_eq_some_iff.mp h
    obtain ⟨q, hq, hqe⟩ := Option.map_eq_some_iff.mp hrest
    obtain ⟨-, rfl⟩ := Prod.mk.inj hqe
    have hstores := run_stores (handle_stores hs hp) hq
    rwa [List.append_assoc, ← queueRequests_append] at hstores

theorem run_stores_empty {rs : List (Request Sig)} {resps : List (Response Sig)} {db : Db Sig}
    (h : run cfg Db.empty rs = some (resps, db)) (from' to' : Service) :
    Stores db from' to' (queueRequests from' to' rs) := by
  simpa using run_stores (stores_empty from' to') h

/-! ## Acknowledging -/

/-- `ack_message` stores any id its recipient signs: after two messages are queued from the
    coordinator to Bitcoin's processor, the processor's ack of id 1 moves `last_acknowledged`
    from none to 1, though `next` never returned message 0 and it was not acknowledged; `next`
    then returns nothing, and message 0 is never returned. -/
theorem ack_skips_message (cfg : Config Sig) (msg0 msg1 : List UInt8) (sig0 sig1 sig2 : Sig)
    (hreg : cfg.registered .bitcoin = true)
    (h0 : cfg.verifyQueue ⟨.coordinator, .processor .bitcoin, [0]⟩ msg0 sig0 = true)
    (h1 : cfg.verifyQueue ⟨.coordinator, .processor .bitcoin, [1]⟩ msg1 sig1 = true)
    (h2 : cfg.verifyAck (.processor .bitcoin) .coordinator 1 sig2 = true) :
    ∃ db, run cfg Db.empty [.queue ⟨.coordinator, .processor .bitcoin, [0]⟩ msg0 sig0,
        .queue ⟨.coordinator, .processor .bitcoin, [1]⟩ msg1 sig1,
        .ack .coordinator (.processor .bitcoin) 1 sig2, .next .coordinator (.processor .bitcoin)] =
        some ([.queued, .queued, .acked, .next none], db) ∧
      (db.queues (.coordinator, .processor .bitcoin)).lastAcknowledged = some 1 ∧
      (db.queues (.coordinator, .processor .bitcoin)).messages 0 = some ⟨.coordinator, 0, msg0, sig0⟩ := by
  simp [run, handle, queueMessage, getNextMessage, ackMessage, Config.hasKey, Config.hasQueue,
    Service.isCoordinator, Db.empty, Queue.queueMessage, Queue.getMessage, Queue.ackMessage, h0, h1, h2, hreg]

/-- A deployment where every network is registered and every signature verifies. -/
def Config.trusting : Config Unit := ⟨fun _ => true, fun _ _ _ => true, fun _ _ _ _ => true⟩

theorem ack_skips_message_trusting :
    ∃ db, run Config.trusting Db.empty [.queue ⟨.coordinator, .processor .bitcoin, [0]⟩ [7] (),
        .queue ⟨.coordinator, .processor .bitcoin, [1]⟩ [8] (),
        .ack .coordinator (.processor .bitcoin) 1 (), .next .coordinator (.processor .bitcoin)] =
        some ([.queued, .queued, .acked, .next none], db) ∧
      (db.queues (.coordinator, .processor .bitcoin)).lastAcknowledged = some 1 ∧
      (db.queues (.coordinator, .processor .bitcoin)).messages 0 = some ⟨.coordinator, 0, [7], ()⟩ :=
  ack_skips_message Config.trusting [7] [8] () () () rfl rfl rfl rfl

end Serai.MessageQueue
