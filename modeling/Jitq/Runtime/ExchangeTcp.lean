import Jitq.Lib.Transition
import Mathlib.Data.Finset.Card
import Mathlib.Data.Fintype.Basic
import Mathlib.Data.Fintype.Card
import Mathlib.Data.Fintype.Prod
import Mathlib.Data.List.ReduceOption

namespace Jitq.Runtime

open Transition List Function Option

/-!
# The TCP exchange service — safety over every interleaving

Every host runs one `ExchangeService`.  A message for another host goes into the bounded sink channel
of that host; a sender fiber writes the messages of the sink, of whatever exchange, to one FIFO
connection; a receiver fiber on the other side reads them and pushes each payload into the bounded
source channel of its exchange.  The record of an exchange is created by the local `StartExchange` or
by the first message that arrives for it, whichever comes first.

A `Link` is the way from one host to another one, a `Record` what one host has of one exchange.  The
steps of all threads and fibers are the events of one transition system, at the granularity of single
channel operations, map lookups, counter updates, headers and payload bytes.

`exchangeTcp_safe` is the contract over every trace of this system.
-/

/-! ### Messages on the wire -/

/-- A `std::string`. -/
abbrev Payload := List UInt8

/-- What `SendMessage` puts into a sink: the exchange id and, unless it is an end-of-stream, the
    payload. -/
abbrev Message := ℕ × Option Payload

inductive OpCode
  | kEndStream
  | kMessage
  deriving DecidableEq

structure MessageHeader where
  opCode : OpCode
  exchangeId : ℕ
  messageLength : ℕ
  deriving DecidableEq

/-- A connection transports headers and payload bytes. -/
inductive WireItem
  | header (header : MessageHeader)
  | byte (byte : UInt8)
  deriving DecidableEq

def headerOf : Message → MessageHeader
  | (exchangeId, none) => ⟨.kEndStream, exchangeId, 0⟩
  | (exchangeId, some payload) => ⟨.kMessage, exchangeId, payload.length⟩

def bodyOf : Message → List WireItem
  | (_, none) => []
  | (_, some payload) => payload.map .byte

/-- What `RunSender` writes for a message. -/
def encode (m : Message) : List WireItem := .header (headerOf m) :: bodyOf m

@[simp]
theorem headerOf_exchangeId (m : Message) : (headerOf m).exchangeId = m.1 := by
  obtain ⟨e, _ | p⟩ := m <;> rfl

/-! ### States -/

/-- Where a receiver fiber is in the body of its loop: waiting for a header; before `StartExchange`;
    before the lookup of the exchange; after the counter went to zero and before the channel is closed;
    reading a payload of which `missing` bytes are missing, or pushing it if none is. -/
inductive Receiver
  | waiting
  | headerRead (header : MessageHeader)
  | exchangeStarted (header : MessageHeader)
  | closing (exchangeId : ℕ)
  | reading (exchangeId missing : ℕ) (payload : Payload)
  deriving DecidableEq

/-- The way from one host to another: the sink channel, what the sender fiber has still to write of the
    message it popped, the connection, and the receiver fiber.  `sent` and `handled` are the history
    of the messages that were pushed into the sink and that the receiver is done with. -/
structure Link where
  sink : List Message
  outgoing : List WireItem
  connection : List WireItem
  receiver : Receiver
  sent : List Message
  handled : List Message

def Link.initial : Link := ⟨[], [], [], .waiting, [], []⟩

/-- An `Exchange`; a payload in the source channel is tagged with its sender, which no step reads. -/
structure Exchange (n : ℕ) where
  source : List (Fin n × Payload)
  closed : Bool
  numRemainingReceivers : ℤ

/-- What a host has of an exchange: its entry in `exchanges_`, whether `StartExchange` and
    `FinishExchange` were called locally, the payloads that `ReceiveMessage` returned, and whether it
    has returned the empty optional. -/
structure Record (n : ℕ) where
  exchange : Option (Exchange n)
  started : Bool
  finished : Bool
  received : List (Fin n × Payload)
  ended : Bool

def Record.initial {n : ℕ} : Record n := ⟨none, false, false, [], false⟩

/-- All links, from the first to the second host, and all records, of a host and an exchange id. -/
structure TcpState (n : ℕ) where
  links : Fin n × Fin n → Link
  records : Fin n × ℕ → Record n

/-- The capacities of the channels and of the buffers of a connection. -/
structure TcpConfig where
  numHosts : ℕ
  sinkCapacity : ℕ
  connectionCapacity : ℕ
  sourceCapacity : ℕ

inductive TcpEvent (n : ℕ)
  | startExchange (host : Fin n) (exchangeId : ℕ)
  | sendMessage (sender receiver : Fin n) (message : Message)
  | popSink (link : Fin n × Fin n)
  | write (link : Fin n × Fin n)
  | readHeader (link : Fin n × Fin n)
  | startOnMessage (link : Fin n × Fin n)
  | handleHeader (link : Fin n × Fin n)
  | closeSource (link : Fin n × Fin n)
  | readByte (link : Fin n × Fin n)
  | pushSource (link : Fin n × Fin n)
  | receiveMessage (host : Fin n) (exchangeId : ℕ)
  | finishExchange (host : Fin n) (exchangeId : ℕ)

/-- An update keeps what it does not change of the old value. -/
theorem apply_update_eq {ι β γ : Type} [DecidableEq ι] {g : ι → β} {k : ι} {x : β} {f : β → γ} (h : f x = f (g k))
    (i : ι) : f (update g k x i) = f (g i) := by
  by_cases hi : i = k
  · rw [hi, update_self, h]
  · rw [update_of_ne hi]

namespace TcpState

variable {n : ℕ}

def setLink (s : TcpState n) (p : Fin n × Fin n) (l : Link) : TcpState n := { s with links := update s.links p l }

def setRecord (s : TcpState n) (k : Fin n × ℕ) (r : Record n) : TcpState n :=
  { s with records := update s.records k r }

section

variable (s : TcpState n)

@[simp] theorem setLink_records (p : Fin n × Fin n) (l : Link) : (s.setLink p l).records = s.records := rfl

@[simp] theorem setRecord_links (k : Fin n × ℕ) (r : Record n) : (s.setRecord k r).links = s.links := rfl

@[simp] theorem setLink_self (p : Fin n × Fin n) (l : Link) : (s.setLink p l).links p = l := update_self ..

@[simp] theorem setRecord_self (k : Fin n × ℕ) (r : Record n) : (s.setRecord k r).records k = r := update_self ..

theorem setLink_of_ne {p q : Fin n × Fin n} (h : q ≠ p) (l : Link) :
    (s.setLink p l).links q = s.links q := update_of_ne h ..

theorem setRecord_of_ne {k j : Fin n × ℕ} (h : j ≠ k) (r : Record n) :
    (s.setRecord k r).records j = s.records j := update_of_ne h ..

end

end TcpState

/-! ### Steps -/

/-- `StartExchange`: emplaces a new exchange unless there is one. -/
def emplaceExchange (n : ℕ) (exchange : Option (Exchange n)) : Option (Exchange n) :=
  some (exchange.getD ⟨[], false, n⟩)

/-- The rest of `RunReceiver`'s loop body for a header, once the exchange has been looked up. -/
def handleHeader {n : ℕ} (header : MessageHeader) (l : Link) (x : Exchange n) : Link × Exchange n :=
  match header.opCode with
  | .kEndStream =>
    let numRemainingReceivers := x.numRemainingReceivers - 1
    ({ l with
        handled := l.handled ++ [(header.exchangeId, none)]
        receiver := if numRemainingReceivers = 0 then .closing header.exchangeId else .waiting },
      { x with numRemainingReceivers := numRemainingReceivers })
  | .kMessage =>
    ({ l with receiver := .reading header.exchangeId header.messageLength [] }, x)

namespace TcpConfig

variable (cfg : TcpConfig)

/-- One step of a thread or a fiber; `none` if it blocks, or throws because a lookup fails.  The
    clients of the service keep its contract: an exchange id is used once on each host, a host sends
    nothing for an exchange after its end-of-stream, and `FinishExchange`, which asserts that
    `ReceiveMessage` returns the empty optional, is called when it does. -/
def step (s : TcpState cfg.numHosts) : TcpEvent cfg.numHosts → Option (TcpState cfg.numHosts)
  | .startExchange h e =>
    let r := s.records (h, e)
    if r.started = false ∧ r.finished = false then
      some (s.setRecord (h, e) { r with exchange := emplaceExchange cfg.numHosts r.exchange, started := true })
    else none
  | .sendMessage src dst m =>
    let l := s.links (src, dst)
    if (m.1, none) ∉ l.sent ∧ l.sink.length < cfg.sinkCapacity then
      some (s.setLink (src, dst) { l with sink := l.sink ++ [m], sent := l.sent ++ [m] })
    else none
  | .popSink p =>
    let l := s.links p
    match l.outgoing, l.sink with
    | [], m :: rest => some (s.setLink p { l with sink := rest, outgoing := encode m })
    | _, _ => none
  | .write p =>
    let l := s.links p
    match l.outgoing with
    | [] => none
    | item :: rest =>
      if l.connection.length < cfg.connectionCapacity then
        some (s.setLink p { l with outgoing := rest, connection := l.connection ++ [item] })
      else none
  | .readHeader p =>
    let l := s.links p
    match l.receiver, l.connection with
    | .waiting, .header header :: rest =>
      some (s.setLink p { l with receiver := .headerRead header, connection := rest })
    | _, _ => none
  | .startOnMessage p =>
    let l := s.links p
    match l.receiver with
    | .headerRead header =>
      let r := s.records (p.2, header.exchangeId)
      some ((s.setLink p { l with receiver := .exchangeStarted header }).setRecord
        (p.2, header.exchangeId) { r with exchange := emplaceExchange cfg.numHosts r.exchange })
    | _ => none
  | .handleHeader p =>
    let l := s.links p
    match l.receiver with
    | .exchangeStarted header =>
      let r := s.records (p.2, header.exchangeId)
      r.exchange.map fun x => (s.setLink p (handleHeader header l x).1).setRecord (p.2, header.exchangeId)
          { r with exchange := some (handleHeader header l x).2 }
    | _ => none
  | .closeSource p =>
    let l := s.links p
    match l.receiver with
    | .closing e =>
      let r := s.records (p.2, e)
      r.exchange.map fun x => (s.setLink p { l with receiver := .waiting }).setRecord (p.2, e)
          { r with exchange := some { x with closed := true } }
    | _ => none
  | .readByte p =>
    let l := s.links p
    match l.receiver, l.connection with
    | .reading e (missing + 1) payload, .byte b :: rest =>
      some (s.setLink p { l with receiver := .reading e missing (payload ++ [b]), connection := rest })
    | _, _ => none
  | .pushSource p =>
    let l := s.links p
    match l.receiver with
    | .reading e 0 payload =>
      let r := s.records (p.2, e)
      let l' := { l with receiver := .waiting, handled := l.handled ++ [(e, some payload)] }
      r.exchange.bind fun x =>
        -- a push into a closed channel does nothing
        if x.closed then some (s.setLink p l')
        else if x.source.length < cfg.sourceCapacity then
          some ((s.setLink p l').setRecord (p.2, e)
            { r with exchange := some { x with source := x.source ++ [(p.1, payload)] } })
        else none
    | _ => none
  | .receiveMessage h e =>
    let r := s.records (h, e)
    if r.started = true ∧ r.finished = false then
      r.exchange.bind fun x =>
        match x.source with
        | item :: rest => some (s.setRecord (h, e)
            { r with exchange := some { x with source := rest }, received := r.received ++ [item] })
        | [] => if x.closed then some (s.setRecord (h, e) { r with ended := true }) else none
    else none
  | .finishExchange h e =>
    let r := s.records (h, e)
    if r.started = true ∧ r.finished = false then
      r.exchange.bind fun x =>
        if x.source = [] ∧ x.closed = true then
          some (s.setRecord (h, e) { r with exchange := none, finished := true, ended := true })
        else none
    else none

def system : System (TcpState cfg.numHosts) (TcpEvent cfg.numHosts) where
  init := ⟨fun _ => .initial, fun _ => .initial⟩
  step := cfg.step

end TcpConfig

/-! ### The invariant of a link -/

/-- The messages `msgs` are between the sink and the receiver, which is in a state `receiver` and has
    `items` still to read. -/
def InTransit (msgs : List Message) (items : List WireItem) : Receiver → Prop
  | .waiting | .closing _ => items = msgs.flatMap encode
  | .headerRead header | .exchangeStarted header =>
    ∃ m rest, msgs = m :: rest ∧ header = headerOf m ∧ items = bodyOf m ++ rest.flatMap encode
  | .reading e missing payload =>
    ∃ todo rest, msgs = (e, some (payload ++ todo)) :: rest ∧ todo.length = missing ∧
      items = todo.map WireItem.byte ++ rest.flatMap encode

/-- Nothing is lost or reordered on a link, and an end-of-stream is the last message of its
    exchange. -/
structure LinkInv (l : Link) : Prop where
  transit : ∃ msgs, l.sent = l.handled ++ msgs ++ l.sink ∧ InTransit msgs (l.connection ++ l.outgoing) l.receiver
  eosLast : l.sent.Pairwise fun a b => a.2 = none → a.1 ≠ b.1

theorem linkInv_initial : LinkInv .initial := ⟨⟨[], rfl, rfl⟩, .nil⟩

/-- The exchange id that a receiver has looked up, or is about to look up. -/
def Receiver.engaged : Receiver → Option ℕ
  | .waiting | .headerRead _ => none
  | .exchangeStarted header => some header.exchangeId
  | .closing e => some e
  | .reading e _ _ => some e

/-- The exchange id of the message that a receiver is handling. -/
def Receiver.current : Receiver → Option ℕ
  | .waiting | .closing _ => none
  | .headerRead header | .exchangeStarted header => some header.exchangeId
  | .reading e _ _ => some e

/-- A receiver that has looked up an exchange handles a message of it or closes its channel. -/
theorem Receiver.current_or_closing {receiver : Receiver} {e : ℕ} (h : receiver.engaged = some e) :
    receiver.current = some e ∨ receiver = .closing e := by
  cases receiver with
  | waiting | headerRead header => cases h
  | exchangeStarted header | reading e' missing payload => exact .inl h
  | closing e' =>
    cases h
    exact .inr rfl

variable {msgs : List Message} {payload : Payload}

section LinkSteps

variable {l : Link} {m : Message} {rest : List WireItem} {header : MessageHeader} {e : ℕ}

section

variable (h : LinkInv l)

include h

theorem LinkInv.send (hm : (m.1, none) ∉ l.sent) :
    LinkInv { l with sink := l.sink ++ [m], sent := l.sent ++ [m] } where
  transit := by
    obtain ⟨msgs, hsent, htransit⟩ := h.transit
    refine ⟨msgs, ?_, htransit⟩
    show l.sent ++ [m] = l.handled ++ msgs ++ (l.sink ++ [m])
    rw [hsent, append_assoc]
  eosLast := by
    refine pairwise_append.mpr ⟨h.eosLast, pairwise_singleton .., ?_⟩
    rintro ⟨e, payload⟩ ha b hb heos rfl
    obtain rfl := mem_singleton.mp hb
    obtain rfl : payload = none := heos
    exact hm ha

theorem LinkInv.popSink {rest : List Message} (hout : l.outgoing = []) (hsink : l.sink = m :: rest) :
    LinkInv { l with sink := rest, outgoing := encode m } where
  transit := by
    obtain ⟨msgs, hsent, htransit⟩ := h.transit
    refine ⟨msgs ++ [m], ?_, ?_⟩
    · show l.sent = l.handled ++ (msgs ++ [m]) ++ rest
      rw [hsent, hsink]
      simp
    · rw [hout, append_nil] at htransit
      show InTransit (msgs ++ [m]) (l.connection ++ encode m) l.receiver
      cases hr : l.receiver with
      | waiting | closing e =>
        rw [hr, InTransit] at htransit
        rw [InTransit, htransit, flatMap_append, flatMap_singleton]
      | headerRead header | exchangeStarted header =>
        rw [hr] at htransit
        obtain ⟨m', rest', rfl, hhdr, hitems⟩ := htransit
        refine ⟨m', rest' ++ [m], rfl, hhdr, ?_⟩
        rw [hitems, flatMap_append, flatMap_singleton, append_assoc]
      | reading e missing payload =>
        rw [hr] at htransit
        obtain ⟨todo, rest', rfl, hlen, hitems⟩ := htransit
        refine ⟨todo, rest' ++ [m], rfl, hlen, ?_⟩
        rw [hitems, flatMap_append, flatMap_singleton, append_assoc]
  eosLast := h.eosLast

theorem LinkInv.write {item : WireItem} (hout : l.outgoing = item :: rest) :
    LinkInv { l with outgoing := rest, connection := l.connection ++ [item] } where
  transit := by
    obtain ⟨msgs, hsent, htransit⟩ := h.transit
    refine ⟨msgs, hsent, ?_⟩
    show InTransit msgs (l.connection ++ [item] ++ rest) l.receiver
    rw [append_assoc, singleton_append, ← hout]
    exact htransit
  eosLast := h.eosLast

theorem LinkInv.readHeader (hr : l.receiver = .waiting) (hconn : l.connection = .header header :: rest) :
    LinkInv { l with receiver := .headerRead header, connection := rest } where
  transit := by
    obtain ⟨msgs, hsent, htransit⟩ := h.transit
    refine ⟨msgs, hsent, ?_⟩
    rw [hr, InTransit, hconn] at htransit
    cases msgs with
    | nil => simp at htransit
    | cons m msgs =>
      obtain ⟨hhdr, hitems⟩ := List.cons.inj htransit
      exact ⟨m, msgs, rfl, WireItem.header.inj hhdr, hitems⟩
  eosLast := h.eosLast

/-- The receiver goes on without reading anything. -/
theorem LinkInv.setReceiver {receiver : Receiver}
    (hnext : ∀ msgs items, InTransit msgs items l.receiver → InTransit msgs items receiver) :
    LinkInv { l with receiver := receiver } where
  transit := by
    obtain ⟨msgs, hsent, htransit⟩ := h.transit
    exact ⟨msgs, hsent, hnext _ _ htransit⟩
  eosLast := h.eosLast

theorem LinkInv.startOnMessage (hr : l.receiver = .headerRead header) :
    LinkInv { l with receiver := .exchangeStarted header } :=
  h.setReceiver fun _ _ htransit => by rwa [hr] at htransit

theorem LinkInv.handleEndStream (hr : l.receiver = .exchangeStarted header)
    (hop : header.opCode = .kEndStream) (receiver : Receiver)
    (hnext : receiver = .waiting ∨ ∃ e, receiver = .closing e) :
    LinkInv { l with
      handled := l.handled ++ [(header.exchangeId, none)]
      receiver := receiver } where
  transit := by
    obtain ⟨msgs, hsent, htransit⟩ := h.transit
    rw [hr] at htransit
    obtain ⟨⟨e, payload⟩, rest, rfl, rfl, hitems⟩ := htransit
    cases payload with
    | some payload => simp [headerOf] at hop
    | none =>
      refine ⟨rest, ?_, ?_⟩
      · rw [hsent]
        simp [headerOf]
      · obtain rfl | ⟨e', rfl⟩ := hnext <;> exact hitems
  eosLast := h.eosLast

theorem LinkInv.handleMessage (hr : l.receiver = .exchangeStarted header) (hop : header.opCode = .kMessage) :
    LinkInv { l with receiver := .reading header.exchangeId header.messageLength [] } := by
  refine h.setReceiver fun msgs items htransit => ?_
  rw [hr] at htransit
  obtain ⟨⟨e, payload⟩, rest, rfl, rfl, hitems⟩ := htransit
  cases payload with
  | none => simp [headerOf] at hop
  | some payload => exact ⟨payload, rest, rfl, rfl, hitems⟩

theorem LinkInv.closeSource (hr : l.receiver = .closing e) : LinkInv { l with receiver := .waiting } :=
  h.setReceiver fun _ _ htransit => by rwa [hr] at htransit

theorem LinkInv.readByte {missing : ℕ} {b : UInt8}
    (hr : l.receiver = .reading e (missing + 1) payload) (hconn : l.connection = .byte b :: rest) :
    LinkInv { l with receiver := .reading e missing (payload ++ [b]), connection := rest } where
  transit := by
    obtain ⟨msgs, hsent, htransit⟩ := h.transit
    rw [hr, hconn] at htransit
    obtain ⟨todo, msgs', rfl, hlen, hitems⟩ := htransit
    cases todo with
    | nil => simp at hlen
    | cons b' todo =>
      obtain ⟨hb, htail⟩ := List.cons.inj hitems
      obtain rfl := WireItem.byte.inj hb
      refine ⟨_, hsent, todo, msgs', ?_, by simpa using hlen, htail⟩
      rw [append_assoc, singleton_append]
  eosLast := h.eosLast

theorem LinkInv.pushSource (hr : l.receiver = .reading e 0 payload) :
    LinkInv { l with receiver := .waiting, handled := l.handled ++ [(e, some payload)] } where
  transit := by
    obtain ⟨msgs, hsent, htransit⟩ := h.transit
    rw [hr] at htransit
    obtain ⟨todo, rest, rfl, hlen, hitems⟩ := htransit
    obtain rfl := length_eq_zero_iff.mp hlen
    refine ⟨rest, ?_, hitems⟩
    rw [hsent]
    simp
  eosLast := h.eosLast

end

theorem header_mem_encode (h : .header header ∈ encode m) : header = headerOf m := by
  obtain ⟨e, _ | payload⟩ := m <;> simpa [encode, bodyOf] using h

theorem header_mem_flatMap_encode (h : .header header ∈ msgs.flatMap encode) : ∃ m ∈ msgs, header = headerOf m := by
  obtain ⟨m, hm, hhdr⟩ := mem_flatMap.mp h
  exact ⟨m, hm, header_mem_encode hhdr⟩

/-- Every header on the connection is that of a message under way. -/
theorem InTransit.header_mem {items : List WireItem} {receiver : Receiver}
    (h : InTransit msgs items receiver) (hmem : .header header ∈ items) : ∃ m ∈ msgs, header = headerOf m := by
  cases receiver with
  | waiting | closing e => exact header_mem_flatMap_encode (h ▸ hmem)
  | headerRead header' | exchangeStarted header' =>
    obtain ⟨⟨e, payload⟩, rest, rfl, -, rfl⟩ := h
    have hrest : .header header ∈ rest.flatMap encode := by
      cases payload <;> simpa [bodyOf] using hmem
    obtain ⟨m, hm, hhdr⟩ := header_mem_flatMap_encode hrest
    exact ⟨m, mem_cons_of_mem _ hm, hhdr⟩
  | reading e missing payload =>
    obtain ⟨todo, rest, rfl, -, rfl⟩ := h
    have hrest : .header header ∈ rest.flatMap encode := by simpa using hmem
    obtain ⟨m, hm, hhdr⟩ := header_mem_flatMap_encode hrest
    exact ⟨m, mem_cons_of_mem _ hm, hhdr⟩

/-- What is sent after an end-of-stream that is handled belongs to other exchanges. -/
theorem LinkInv.ne_of_eos (h : LinkInv l) (hsent : l.sent = l.handled ++ msgs ++ l.sink)
    (heos : (e, none) ∈ l.handled) (hm : m ∈ msgs ++ l.sink) : m.1 ≠ e := by
  have heosLast := h.eosLast
  rw [hsent, append_assoc] at heosLast
  exact ((pairwise_append.mp heosLast).2.2 _ heos m hm rfl).symm

/-- The end-of-stream of the message that a receiver is handling is not handled. -/
theorem LinkInv.eos_notMem_handled (h : LinkInv l) (hr : l.receiver.current = some e) : (e, none) ∉ l.handled := by
  intro heos
  obtain ⟨msgs, hsent, htransit⟩ := h.transit
  obtain ⟨m, rest, rfl, hm⟩ : ∃ m rest, msgs = m :: rest ∧ m.1 = e := by
    cases hl : l.receiver with
    | waiting | closing e' => rw [hl] at hr; simp [Receiver.current] at hr
    | headerRead header | exchangeStarted header =>
      rw [hl] at htransit hr
      obtain ⟨m, rest, rfl, rfl, -⟩ := htransit
      exact ⟨m, rest, rfl, by simpa [Receiver.current] using hr⟩
    | reading e' missing payload =>
      rw [hl] at htransit hr
      obtain ⟨todo, rest, rfl, -, -⟩ := htransit
      exact ⟨_, rest, rfl, by simpa [Receiver.current] using hr⟩
  exact h.ne_of_eos hsent heos (by simp) hm

/-- After the end-of-stream of an exchange has been handled, nothing of it is under way. -/
theorem LinkInv.ne_of_eos_handled (h : LinkInv l) (heos : (e, none) ∈ l.handled) : (∀ m ∈ l.sink, m.1 ≠ e) ∧
    (∀ header, .header header ∈ l.connection ++ l.outgoing → header.exchangeId ≠ e) ∧
    l.receiver.current ≠ some e := by
  refine ⟨?_, ?_, fun hr => h.eos_notMem_handled hr heos⟩
  · intro m hm
    obtain ⟨msgs, hsent, -⟩ := h.transit
    exact h.ne_of_eos hsent heos (mem_append_right _ hm)
  · intro header hmem
    obtain ⟨msgs, hsent, htransit⟩ := h.transit
    obtain ⟨m, hm, rfl⟩ := htransit.header_mem hmem
    rw [headerOf_exchangeId]
    exact h.ne_of_eos hsent heos (mem_append_left _ hm)

end LinkSteps

/-! ### The invariant of a record -/

/-- The messages of one exchange: an end-of-stream is `none`. -/
def ofExchange (e : ℕ) (msgs : List Message) : List (Option Payload) :=
  msgs.filterMap fun m => if m.1 = e then some m.2 else none

@[simp]
theorem ofExchange_append (e : ℕ) (msgs msgs' : List Message) :
    ofExchange e (msgs ++ msgs') = ofExchange e msgs ++ ofExchange e msgs' :=
  filterMap_append

theorem ofExchange_self (e : ℕ) (payload : Option Payload) :
    ofExchange e [(e, payload)] = [payload] := by simp [ofExchange]

theorem ofExchange_of_ne {e e' : ℕ} (h : e' ≠ e) (payload : Option Payload) :
    ofExchange e [(e', payload)] = [] := by simp [ofExchange, h]

theorem none_mem_ofExchange {e : ℕ} : none ∈ ofExchange e msgs ↔ (e, none) ∈ msgs := by
  simp only [ofExchange, mem_filterMap, ite_none_right_eq_some, some_inj]
  constructor
  · rintro ⟨⟨e', payload⟩, hm, rfl, rfl⟩
    exact hm
  · intro hm
    exact ⟨_, hm, rfl, rfl⟩

/-- What the record of an exchange depends on of an incoming link: the messages of the exchange that
    are handled, whether the receiver is engaged with the exchange, and whether it is about to close
    the channel. -/
structure LinkView where
  handled : List (Option Payload)
  engaged : Bool
  closing : Bool

def Link.view (l : Link) (e : ℕ) : LinkView :=
  ⟨ofExchange e l.handled, decide (l.receiver.engaged = some e), decide (l.receiver = .closing e)⟩

/-- The payloads of one sender. -/
def fromSender {n : ℕ} (sender : Fin n) (items : List (Fin n × Payload)) : List Payload :=
  items.filterMap fun item => if item.1 = sender then some item.2 else none

@[simp]
theorem fromSender_append {n : ℕ} (sender : Fin n) (items items' : List (Fin n × Payload)) :
    fromSender sender (items ++ items') = fromSender sender items ++ fromSender sender items' :=
  filterMap_append

section Records

variable {n : ℕ}

/-- How many hosts' end-of-stream has been handled. -/
def eosCount (view : Fin n → LinkView) : ℕ := (Finset.univ.filter fun sender => none ∈ (view sender).handled).card

/-- The invariant of an exchange that is in the map. -/
structure ExchangeInv (view : Fin n → LinkView) (r : Record n) (x : Exchange n) : Prop where
  unfinished : r.finished = false
  remaining : x.numRemainingReceivers = n - eosCount view
  closed : x.closed = true ↔ eosCount view = n ∧ ∀ sender, (view sender).closing = false
  closing : ∀ sender, (view sender).closing = true → eosCount view = n
  closing_unique : ∀ sender sender', (view sender).closing = true → (view sender').closing = true → sender = sender'
  payloads : ∀ sender, (view sender).handled.reduceOption = fromSender sender r.received ++ fromSender sender x.source
  ended : r.ended = true → x.closed = true ∧ x.source = []

/-- The invariant of a record: the exchange is in the map from the first `StartExchange`, by whichever
    side, until `FinishExchange`. -/
structure RecordInv (view : Fin n → LinkView) (r : Record n) : Prop where
  absent : r.exchange = none → r.finished = false → r.started = false ∧ r.received = [] ∧
    r.ended = false ∧ ∀ sender, (view sender).handled = [] ∧ (view sender).engaged = false ∧
      (view sender).closing = false
  present : ∀ x, r.exchange = some x → ExchangeInv view r x
  finished : r.finished = true → r.exchange = none ∧ r.ended = true ∧ ∀ sender,
    none ∈ (view sender).handled ∧ (view sender).closing = false ∧
    (view sender).handled.reduceOption = fromSender sender r.received

theorem recordInv_initial (e : ℕ) : RecordInv (fun _ : Fin n => Link.initial.view e) .initial where
  absent _ _ := ⟨rfl, rfl, rfl, fun _ => ⟨rfl, rfl, rfl⟩⟩
  present := by simp [Record.initial]
  finished := by simp [Record.initial]

variable {view : Fin n → LinkView} {r : Record n} {x : Exchange n}

theorem RecordInv.of_exchange (hx : r.exchange = some x) (h : ExchangeInv view r x) : RecordInv view r where
  absent hnone := by
    rw [hx] at hnone
    cases hnone
  present x' hx' := by
    cases hx.symm.trans hx'
    exact h
  finished hfin := by
    rw [h.unfinished] at hfin
    cases hfin

theorem eosCount_eq_iff : eosCount view = n ↔ ∀ sender, none ∈ (view sender).handled := by
  rw [eosCount]
  constructor
  · intro h sender
    have huniv := (Finset.card_eq_iff_eq_univ _).mp (h.trans (Fintype.card_fin n).symm)
    have hmem := Finset.mem_univ sender
    rw [← huniv] at hmem
    exact (Finset.mem_filter.mp hmem).2
  · intro h
    rw [Finset.filter_true_of_mem fun sender _ => h sender, Finset.card_univ, Fintype.card_fin]

theorem eosCount_le (view : Fin n → LinkView) : eosCount view ≤ n :=
  (Finset.card_le_univ _).trans_eq (Fintype.card_fin n)

variable {sender : Fin n} {v : LinkView}

/-- One more end-of-stream. -/
theorem eosCount_update (hold : none ∉ (view sender).handled)
    (hnew : none ∈ v.handled) : eosCount (update view sender v) = eosCount view + 1 := by
  unfold eosCount
  have hinsert : (Finset.univ.filter fun s => none ∈ (update view sender v s).handled) =
      insert sender (Finset.univ.filter fun s => none ∈ (view s).handled) := by
    ext s
    by_cases hs : s = sender
    · subst hs
      simpa using hnew
    · simp [hs]
  rw [hinsert, Finset.card_insert_of_notMem (by simpa using hold)]

theorem eosCount_congr {view' : Fin n → LinkView}
    (h : ∀ s, none ∈ (view' s).handled ↔ none ∈ (view s).handled) : eosCount view' = eosCount view := by
  unfold eosCount
  simp only [h]

section

variable (h : RecordInv view r)

include h

/-- Emplacing an exchange, by the host itself or on behalf of a message. -/
theorem RecordInv.emplace (hn : 0 < n) (hunfin : r.finished = false)
    (started : Bool) {view' : Fin n → LinkView} (hhandled : ∀ sender, (view' sender).handled = (view sender).handled)
    (hclosing : ∀ sender, (view' sender).closing = (view sender).closing) :
    RecordInv view' { r with exchange := emplaceExchange n r.exchange, started := started } := by
  refine .of_exchange rfl ?_
  have hsame : eosCount view' = eosCount view := eosCount_congr fun s => by rw [hhandled]
  cases hx : r.exchange with
  | some x =>
    have hinv := h.present x hx
    exact { hinv with
      remaining := by rw [hsame]; exact hinv.remaining
      closed := by simp only [hsame, hclosing]; exact hinv.closed
      closing := by simp only [hsame, hclosing]; exact hinv.closing
      closing_unique := by simp only [hclosing]; exact hinv.closing_unique
      payloads := by simp only [hhandled]; exact hinv.payloads }
  | none =>
    obtain ⟨-, hrecv, hended, hsenders⟩ := h.absent hx hunfin
    have hcount : eosCount view' = 0 := by
      rw [hsame]
      refine Finset.card_eq_zero.mpr (Finset.filter_eq_empty_iff.mpr fun sender _ => ?_)
      simp [(hsenders sender).1]
    have hopen : ∀ sender, (view' sender).closing = false := fun sender =>
      (hclosing sender).trans (hsenders sender).2.2
    refine ⟨hunfin, by simp [hcount], ?_, by simp [hopen], by simp [hopen], fun sender => ?_, by simp [hended]⟩
    · rw [hcount]
      exact ⟨nofun, fun hzero => by omega⟩
    · show (view' sender).handled.reduceOption = fromSender sender r.received ++ _
      rw [hhandled, (hsenders sender).1, hrecv]
      rfl

section

variable (hx : r.exchange = some x)

include hx

/-- Handling an end-of-stream: the receiver of the last one is about to close the channel. -/
theorem RecordInv.endStream
    (heos : none ∉ (view sender).handled) (hhandled : v.handled = (view sender).handled ++ [none])
    (hclosing : v.closing = decide (x.numRemainingReceivers - 1 = 0)) :
    RecordInv (update view sender v)
      { r with exchange := some { x with numRemainingReceivers := x.numRemainingReceivers - 1 } } := by
  have hinv := h.present x hx
  have hcount := eosCount_update (v := v) heos (by rw [hhandled]; simp)
  have hlt : eosCount view < n := by
    refine lt_of_le_of_ne (eosCount_le view) fun heq => heos ?_
    exact eosCount_eq_iff.mp heq sender
  have hlast : v.closing = true ↔ eosCount view + 1 = n := by
    rw [hclosing, decide_eq_true_iff, hinv.remaining]
    omega
  -- no other receiver is closing the channel, since not all end-of-streams were handled
  have hothers : ∀ s, s ≠ sender → (update view sender v s).closing = false := by
    intro s hs
    rw [update_of_ne hs]
    by_contra hcl
    have := hinv.closing s (by simpa using hcl)
    omega
  have hopen : x.closed = false := by
    by_contra hcl
    have := (hinv.closed.mp (by simpa using hcl)).1
    omega
  have hself : ∀ s, (update view sender v s).closing = true → s = sender := by
    intro s hcl
    by_contra hs
    simp [hothers s hs] at hcl
  refine .of_exchange rfl ⟨hinv.unfinished, ?_, ?_, ?_, ?_, fun s => ?_, fun hend => ?_⟩
  · rw [hcount]
    show x.numRemainingReceivers - 1 = _
    rw [hinv.remaining]
    omega
  · show x.closed = true ↔ _
    rw [hopen, hcount]
    refine ⟨nofun, fun ⟨hall, hnone⟩ => ?_⟩
    have hfalse := hnone sender
    rw [update_self, hlast.mpr hall] at hfalse
    cases hfalse
  · intro s hcl
    obtain rfl := hself s hcl
    rw [update_self] at hcl
    rw [hcount]
    exact hlast.mp hcl
  · intro s s' hcl hcl'
    rw [hself s hcl, hself s' hcl']
  · by_cases hs : s = sender
    · subst hs
      rw [update_self, hhandled, reduceOption_append]
      simpa using hinv.payloads s
    · rw [update_of_ne hs]
      exact hinv.payloads s
  · simp [(hinv.ended hend).1] at hopen

theorem RecordInv.closeSource (hclosing : (view sender).closing = true)
    (hhandled : v.handled = (view sender).handled) (hdone : v.closing = false) :
    RecordInv (update view sender v) { r with exchange := some { x with closed := true } } := by
  have hinv := h.present x hx
  have hcount : eosCount (update view sender v) = eosCount view := eosCount_congr fun s => by
    rw [apply_update_eq (f := LinkView.handled) hhandled]
  have hnone : ∀ s, (update view sender v s).closing = false := by
    intro s
    by_cases hs : s = sender
    · rw [hs, update_self, hdone]
    · rw [update_of_ne hs]
      by_contra hcl
      exact hs (hinv.closing_unique s sender (by simpa using hcl) hclosing)
  refine .of_exchange rfl ⟨hinv.unfinished, ?_, ?_, by simp [hnone], by simp [hnone], fun s => ?_,
    fun hend => ⟨rfl, (hinv.ended hend).2⟩⟩
  · rw [hcount]; exact hinv.remaining
  · rw [hcount]
    exact ⟨fun _ => ⟨hinv.closing sender hclosing, hnone⟩, fun _ => rfl⟩
  · rw [apply_update_eq (f := LinkView.handled) hhandled]
    exact hinv.payloads s

/-- While a host's end-of-stream has not been handled, the channel is open. -/
theorem RecordInv.open_of_eos_notMem (sender : Fin n) (heos : none ∉ (view sender).handled) : x.closed = false := by
  by_contra hclosed
  have hall := ((h.present x hx).closed.mp (by simpa using hclosed)).1
  exact heos (eosCount_eq_iff.mp hall sender)

theorem RecordInv.pushSource (heos : none ∉ (view sender).handled)
    (hhandled : v.handled = (view sender).handled ++ [some payload]) (hclosing : v.closing = (view sender).closing) :
    RecordInv (update view sender v)
      { r with exchange := some { x with source := x.source ++ [(sender, payload)] } } := by
  have hinv := h.present x hx
  have hopen := h.open_of_eos_notMem hx _ heos
  have hcount : eosCount (update view sender v) = eosCount view := eosCount_congr fun s =>
    iff_of_eq (apply_update_eq (f := fun v : LinkView => none ∈ v.handled) (by simp [hhandled]) s)
  have hsame : ∀ s, (update view sender v s).closing = (view s).closing := apply_update_eq hclosing
  refine .of_exchange rfl ⟨hinv.unfinished, ?_, ?_, ?_, ?_, fun s => ?_, fun hend => ?_⟩
  · rw [hcount]; exact hinv.remaining
  · simp only [hcount, hsame]; exact hinv.closed
  · simp only [hcount, hsame]; exact hinv.closing
  · simp only [hsame]; exact hinv.closing_unique
  · show _ = fromSender s r.received ++ fromSender s (x.source ++ [(sender, payload)])
    by_cases hs : s = sender
    · subst hs
      rw [update_self, hhandled, reduceOption_append, hinv.payloads s, fromSender_append, append_assoc]
      simp [fromSender]
    · rw [update_of_ne hs, hinv.payloads s, fromSender_append]
      simp [fromSender, Ne.symm hs]
  · simp [(hinv.ended hend).1] at hopen

theorem RecordInv.receive
    {item : Fin n × Payload} {rest : List (Fin n × Payload)} (hsrc : x.source = item :: rest) :
    RecordInv view { r with
      exchange := some { x with source := rest }
      received := r.received ++ [item] } := by
  have hinv := h.present x hx
  refine .of_exchange rfl { hinv with payloads := fun s => ?_, ended := fun hend => ?_ }
  · show _ = fromSender s (r.received ++ [item]) ++ fromSender s rest
    rw [hinv.payloads s, hsrc, ← singleton_append, fromSender_append, fromSender_append, append_assoc]
  · simp [(hinv.ended hend).2] at hsrc

theorem RecordInv.receiveEnd (hsrc : x.source = []) (hclosed : x.closed = true) :
    RecordInv view { r with ended := true } :=
  .of_exchange hx { h.present x hx with ended := fun _ => ⟨hclosed, hsrc⟩ }

theorem RecordInv.finish (hsrc : x.source = []) (hclosed : x.closed = true) :
    RecordInv view { r with exchange := none, finished := true, ended := true } := by
  have hinv := h.present x hx
  obtain ⟨hall, hnone⟩ := hinv.closed.mp hclosed
  refine ⟨fun _ hfin => by simp at hfin, fun x' hx' => by simp at hx', fun _ => ⟨rfl, rfl, ?_⟩⟩
  intro s
  refine ⟨eosCount_eq_iff.mp hall s, hnone s, ?_⟩
  simpa [hsrc, fromSender] using hinv.payloads s

end

end

end Records

/-! ### The invariant of the system -/

structure TcpInv {n : ℕ} (s : TcpState n) : Prop where
  links : ∀ p, LinkInv (s.links p)
  records : ∀ h e, RecordInv (fun sender => (s.links (sender, h)).view e) (s.records (h, e))

section System

variable {n : ℕ} {s : TcpState n}

theorem links_setLink (s : TcpState n) (p : Fin n × Fin n) (l : Link) (e : ℕ) :
    (fun sender => ((s.setLink p l).links (sender, p.2)).view e) =
      update (fun sender => (s.links (sender, p.2)).view e) p.1 (l.view e) := by
  funext sender
  by_cases hs : sender = p.1
  · subst hs
    rw [update_self, TcpState.setLink_self]
  · rw [update_of_ne hs, TcpState.setLink_of_ne]
    exact fun heq => hs (congrArg Prod.fst heq)

theorem links_setLink_of_ne (s : TcpState n) (p : Fin n × Fin n) (l : Link) {h : Fin n} (hh : h ≠ p.2) (e : ℕ) :
    (fun sender => ((s.setLink p l).links (sender, h)).view e) = fun sender => (s.links (sender, h)).view e := by
  funext sender
  rw [TcpState.setLink_of_ne]
  exact fun heq => hh (congrArg Prod.snd heq)

variable {p : Fin n × Fin n} {l : Link} {e : ℕ} {r : Record n}

section

variable (hinv : TcpInv s)

include hinv

theorem TcpInv.setLink_links (hl : LinkInv l) (q : Fin n × Fin n) : LinkInv ((s.setLink p l).links q) := by
  by_cases hq : q = p
  · subst hq
    rwa [TcpState.setLink_self]
  · rw [TcpState.setLink_of_ne s hq]
    exact hinv.links q

/-- A step of a link that changes nothing a record depends on. -/
theorem TcpInv.setLink (hl : LinkInv l) (hview : ∀ e, l.view e = (s.links p).view e) : TcpInv (s.setLink p l) where
  links := hinv.setLink_links hl
  records h e := by
    by_cases hh : h = p.2
    · subst hh
      rw [links_setLink, hview, update_eq_self]
      exact hinv.records p.2 e
    · rw [links_setLink_of_ne s p l hh]
      exact hinv.records h e

theorem TcpInv.setRecord {h : Fin n} (hr : RecordInv (fun sender => (s.links (sender, h)).view e) r) :
    TcpInv (s.setRecord (h, e) r) where
  links := hinv.links
  records h' e' := by
    by_cases hk : (h', e') = (h, e)
    · cases hk
      rwa [TcpState.setRecord_self]
    · rw [TcpState.setRecord_of_ne s hk]
      exact hinv.records h' e'

/-- A step of a receiver on behalf of exchange `e`. -/
theorem TcpInv.setLink_setRecord (hl : LinkInv l) (hview : ∀ e', e' ≠ e → l.view e' = (s.links p).view e')
    (hr : RecordInv (update (fun sender => (s.links (sender, p.2)).view e) p.1 (l.view e)) r) :
    TcpInv ((s.setLink p l).setRecord (p.2, e) r) where
  links := hinv.setLink_links hl
  records h' e' := by
    rw [TcpState.setRecord_links]
    by_cases hk : (h', e') = (p.2, e)
    · cases hk
      rwa [TcpState.setRecord_self, links_setLink]
    · rw [TcpState.setRecord_of_ne _ hk, TcpState.setLink_records]
      by_cases hh : h' = p.2
      · subst hh
        have hne : e' ≠ e := fun heq => hk (by rw [heq])
        rw [links_setLink, hview e' hne, update_eq_self]
        exact hinv.records p.2 e'
      · rw [links_setLink_of_ne s p l hh]
        exact hinv.records h' e'

theorem TcpInv.eos_notMem_view (hcur : (s.links p).receiver.current = some e) :
    none ∉ ((s.links p).view e).handled := fun heos =>
  (hinv.links p).eos_notMem_handled hcur (none_mem_ofExchange.mp heos)

/-- A host that a message is on its way to has not finished the exchange. -/
theorem TcpInv.unfinished (hcur : (s.links p).receiver.current = some e) :
    (s.records (p.2, e)).finished = false := by
  by_contra hfin
  have hall := ((hinv.records p.2 e).finished (by simpa using hfin)).2.2 p.1
  exact hinv.eos_notMem_view hcur hall.1

/-- The lookups of a receiver find the exchange. -/
theorem TcpInv.exists_exchange (hengaged : (s.links p).receiver.engaged = some e)
    (hunfin : (s.records (p.2, e)).finished = false) : ∃ x, (s.records (p.2, e)).exchange = some x := by
  refine ne_none_iff_exists'.mp fun hnone => ?_
  have hall := ((hinv.records p.2 e).absent hnone hunfin).2.2.2 p.1
  have hidle := hall.2.1
  simp [Link.view, hengaged] at hidle

end

variable {cfg : TcpConfig}

theorem tcpInv_init : TcpInv cfg.system.init where
  links _ := linkInv_initial
  records _ e := recordInv_initial e

/-- Every step of a thread or a fiber keeps the invariant. -/
theorem TcpInv.step {s s' : TcpState cfg.numHosts} {event : TcpEvent cfg.numHosts}
    (hinv : TcpInv s) (hstep : cfg.step s event = some s') : TcpInv s' := by
  cases event <;> dsimp only [TcpConfig.step] at hstep
  case startExchange h e =>
    rw [ite_none_right_eq_some] at hstep
    obtain ⟨⟨-, hunfin⟩, hs'⟩ := hstep
    cases hs'
    exact hinv.setRecord ((hinv.records h e).emplace h.pos hunfin true (fun _ => rfl)
      fun _ => rfl)
  case sendMessage src dst m =>
    rw [ite_none_right_eq_some] at hstep
    obtain ⟨⟨hm, -⟩, hs'⟩ := hstep
    cases hs'
    exact hinv.setLink ((hinv.links _).send hm) fun _ => rfl
  case popSink p =>
    split at hstep
    · rename_i m rest hout hsink
      cases hstep
      exact hinv.setLink ((hinv.links p).popSink hout hsink) fun _ => rfl
    · simp at hstep
  case write p =>
    split at hstep
    · simp at hstep
    · rename_i item rest hout
      rw [ite_none_right_eq_some] at hstep
      obtain ⟨-, hs'⟩ := hstep
      cases hs'
      exact hinv.setLink ((hinv.links p).write hout) fun _ => rfl
  case readHeader p =>
    split at hstep
    · rename_i header rest hr hconn
      cases hstep
      refine hinv.setLink ((hinv.links p).readHeader hr hconn) fun e => ?_
      simp [Link.view, hr, Receiver.engaged]
    · simp at hstep
  case startOnMessage p =>
    split at hstep
    · rename_i header hr
      cases hstep
      have hunfin := hinv.unfinished (p := p) (e := header.exchangeId)
        (by rw [hr, Receiver.current])
      refine hinv.setLink_setRecord ((hinv.links p).startOnMessage hr) (fun e' hne => ?_)
        ((hinv.records p.2 header.exchangeId).emplace p.1.pos hunfin _ (apply_update_eq rfl) (apply_update_eq ?_))
      · simp [Link.view, hr, Receiver.engaged, Ne.symm hne]
      · simp [Link.view, hr]
    · simp at hstep
  case handleHeader p =>
    split at hstep
    · rename_i header hr
      obtain ⟨x, hx, rfl⟩ := map_eq_some_iff.mp hstep
      have heos := hinv.eos_notMem_view (p := p) (e := header.exchangeId) (by rw [hr, Receiver.current])
      cases hop : header.opCode with
      | kEndStream =>
        simp only [handleHeader, hop]
        refine hinv.setLink_setRecord ((hinv.links p).handleEndStream hr hop _ ?_)
          (fun e' hne => ?_) ((hinv.records p.2 header.exchangeId).endStream hx heos ?_ ?_)
        · split
          · exact .inr ⟨_, rfl⟩
          · exact .inl rfl
        · by_cases hlast : x.numRemainingReceivers - 1 = 0 <;>
            simp [Link.view, hr, hlast, Receiver.engaged, ofExchange_of_ne (Ne.symm hne), Ne.symm hne]
        · simp [Link.view, ofExchange_self]
        · by_cases hlast : x.numRemainingReceivers - 1 = 0 <;> simp [Link.view, hlast]
      | kMessage =>
        -- the record stays as it is, and so does what it depends on
        simp only [handleHeader, hop]
        refine hinv.setLink_setRecord ((hinv.links p).handleMessage hr hop) (fun e' _ => ?_) ?_
        · simp [Link.view, hr, Receiver.engaged]
        · have hsame : ({ s.links p with
                receiver := .reading header.exchangeId header.messageLength [] } : Link).view
                header.exchangeId = (s.links p).view header.exchangeId := by
            simp [Link.view, hr, Receiver.engaged]
          rw [hsame, ← hx, update_eq_self]
          exact hinv.records p.2 header.exchangeId
    · simp at hstep
  case closeSource p =>
    split at hstep
    · rename_i e hr
      obtain ⟨x, hx, rfl⟩ := map_eq_some_iff.mp hstep
      refine hinv.setLink_setRecord ((hinv.links p).closeSource hr) (fun e' hne => ?_)
        ((hinv.records p.2 e).closeSource hx ?_ rfl ?_)
      · simp [Link.view, hr, Receiver.engaged, Ne.symm hne]
      · simp [Link.view, hr]
      · simp [Link.view]
    · simp at hstep
  case readByte p =>
    split at hstep
    · rename_i e missing payload b rest hr hconn
      cases hstep
      refine hinv.setLink ((hinv.links p).readByte hr hconn) fun e => ?_
      simp [Link.view, hr, Receiver.engaged]
    · simp at hstep
  case pushSource p =>
    split at hstep
    · rename_i e payload hr
      obtain ⟨x, hx, hstep⟩ := bind_eq_some_iff.mp hstep
      have heos := hinv.eos_notMem_view (p := p) (e := e) (by rw [hr, Receiver.current])
      have hopen := (hinv.records p.2 e).open_of_eos_notMem hx p.1 heos
      rw [if_neg (by rw [hopen]; exact Bool.false_ne_true), ite_none_right_eq_some] at hstep
      obtain ⟨-, hs'⟩ := hstep
      cases hs'
      refine hinv.setLink_setRecord ((hinv.links p).pushSource hr) (fun e' hne => ?_)
        ((hinv.records p.2 e).pushSource hx heos ?_ ?_)
      · simp [Link.view, hr, Receiver.engaged, ofExchange_of_ne (Ne.symm hne), Ne.symm hne]
      · simp [Link.view, ofExchange_self]
      · simp [Link.view, hr]
    · simp at hstep
  case receiveMessage h e =>
    rw [ite_none_right_eq_some] at hstep
    obtain ⟨-, hstep⟩ := hstep
    obtain ⟨x, hx, hstep⟩ := bind_eq_some_iff.mp hstep
    split at hstep
    · rename_i item rest hsrc
      cases hstep
      exact hinv.setRecord ((hinv.records h e).receive hx hsrc)
    · rename_i hsrc
      rw [ite_none_right_eq_some] at hstep
      obtain ⟨hclosed, hs'⟩ := hstep
      cases hs'
      exact hinv.setRecord ((hinv.records h e).receiveEnd hx hsrc hclosed)
  case finishExchange h e =>
    rw [ite_none_right_eq_some] at hstep
    obtain ⟨-, hstep⟩ := hstep
    obtain ⟨x, hx, hstep⟩ := bind_eq_some_iff.mp hstep
    rw [ite_none_right_eq_some] at hstep
    obtain ⟨⟨hsrc, hclosed⟩, hs'⟩ := hstep
    obtain rfl := some.inj hs'
    exact hinv.setRecord ((hinv.records h e).finish hx hsrc hclosed)

/-! ### The contract -/

/-- The payloads of an exchange that were sent on a link. -/
def payloadsSent (e : ℕ) (l : Link) : List Payload := (ofExchange e l.sent).reduceOption

/-- What holds in every state: `received` is what `ReceiveMessage` returned. -/
structure TcpSafe (s : TcpState n) : Prop where
  /-- Payloads are delivered once and in the order in which their sender sent them. -/
  order : ∀ h e sender, fromSender sender (s.records (h, e)).received <+: payloadsSent e (s.links (sender, h))
  /-- The empty optional is returned only after all hosts' end-of-stream arrived and all payloads
      were delivered. -/
  complete : ∀ h e, (s.records (h, e)).ended = true → ∀ sender, (e, none) ∈ (s.links (sender, h)).handled ∧
    fromSender sender (s.records (h, e)).received = payloadsSent e (s.links (sender, h))
  /-- A payload that is read is pushed into a channel that is not closed. -/
  openOnPush : ∀ p e missing payload, (s.links p).receiver = .reading e missing payload →
    ∃ x, (s.records (p.2, e)).exchange = some x ∧ x.closed = false
  /-- No lookup of an exchange fails. -/
  lookup : (∀ p e, (s.links p).receiver.engaged = some e → (s.records (p.2, e)).exchange.isSome) ∧
    ∀ h e, (s.records (h, e)).started = true → (s.records (h, e)).finished = false →
      (s.records (h, e)).exchange.isSome
  /-- The counter does not go below zero, and it is zero once the channel is closed. -/
  remaining : ∀ h e x, (s.records (h, e)).exchange = some x → 0 ≤ x.numRemainingReceivers ∧
    (x.closed = true → x.numRemainingReceivers = 0)
  /-- After `FinishExchange` no message of the exchange is on its way. -/
  quiet : ∀ h e, (s.records (h, e)).finished = true → ∀ sender, (∀ m ∈ (s.links (sender, h)).sink, m.1 ≠ e) ∧
    (∀ header, .header header ∈ (s.links (sender, h)).connection ++ (s.links (sender, h)).outgoing →
      header.exchangeId ≠ e) ∧
    (s.links (sender, h)).receiver.current ≠ some e ∧
    (s.links (sender, h)).receiver.engaged ≠ some e

theorem LinkInv.handled_prefixOf (h : LinkInv l) (e : ℕ) :
    (ofExchange e l.handled).reduceOption <+: payloadsSent e l := by
  obtain ⟨msgs, hsent, -⟩ := h.transit
  rw [payloadsSent, hsent, append_assoc, ofExchange_append, reduceOption_append]
  exact List.prefix_append ..

theorem LinkInv.handled_of_eos (h : LinkInv l) (heos : (e, none) ∈ l.handled) :
    (ofExchange e l.handled).reduceOption = payloadsSent e l := by
  obtain ⟨msgs, hsent, -⟩ := h.transit
  have hrest : ofExchange e (msgs ++ l.sink) = [] :=
    filterMap_eq_nil_iff.mpr fun m hm => if_neg (h.ne_of_eos hsent heos hm)
  rw [payloadsSent, hsent, append_assoc, ofExchange_append, hrest, append_nil]

/-- What is received of a sender is the beginning of what is handled, and all of it at the end. -/
theorem RecordInv.received {view : Fin n → LinkView} (h : RecordInv view r) (sender : Fin n) :
    fromSender sender r.received <+: (view sender).handled.reduceOption ∧
    (r.ended = true → none ∈ (view sender).handled ∧
      fromSender sender r.received = (view sender).handled.reduceOption) := by
  cases hx : r.exchange with
  | some x =>
    have hinv := h.present x hx
    rw [hinv.payloads sender]
    refine ⟨List.prefix_append .., fun hend => ?_⟩
    obtain ⟨hclosed, hsrc⟩ := hinv.ended hend
    refine ⟨eosCount_eq_iff.mp (hinv.closed.mp hclosed).1 sender, ?_⟩
    rw [hsrc]
    simp [fromSender]
  | none =>
    by_cases hfin : r.finished = true
    · obtain ⟨-, -, hall⟩ := h.finished hfin
      obtain ⟨heos, -, hpayloads⟩ := hall sender
      rw [hpayloads]
      exact ⟨List.prefix_rfl, fun _ => ⟨heos, rfl⟩⟩
    · obtain ⟨-, hrecv, hended, -⟩ := h.absent hx (by simpa using hfin)
      rw [hrecv, hended]
      exact ⟨List.nil_prefix, fun hend => by simp at hend⟩

theorem TcpInv.safe (hinv : TcpInv s) : TcpSafe s where
  order h e sender := ((hinv.records h e).received sender).1.trans ((hinv.links (sender, h)).handled_prefixOf e)
  complete h e hended sender := by
    obtain ⟨heos, hrecv⟩ := ((hinv.records h e).received sender).2 hended
    have heos' := none_mem_ofExchange.mp heos
    exact ⟨heos', hrecv.trans ((hinv.links (sender, h)).handled_of_eos heos')⟩
  openOnPush p e missing payload hr := by
    have hcur : (s.links p).receiver.current = some e := by rw [hr, Receiver.current]
    obtain ⟨x, hx⟩ := hinv.exists_exchange (by rw [hr, Receiver.engaged]) (hinv.unfinished hcur)
    exact ⟨x, hx, (hinv.records p.2 e).open_of_eos_notMem hx p.1 (hinv.eos_notMem_view hcur)⟩
  lookup := by
    refine ⟨fun p e hengaged => ?_, fun h e hstarted hunfin => ?_⟩
    · have hunfin : (s.records (p.2, e)).finished = false := by
        obtain hcur | hr := Receiver.current_or_closing hengaged
        · exact hinv.unfinished hcur
        · by_contra hfin
          have hall := (hinv.records p.2 e).finished (by simpa using hfin)
          have hclosing := (hall.2.2 p.1).2.1
          simp [Link.view, hr] at hclosing
      obtain ⟨x, hx⟩ := hinv.exists_exchange hengaged hunfin
      rw [hx]; rfl
    · refine isSome_iff_ne_none.mpr fun hnone => ?_
      have hidle := ((hinv.records h e).absent hnone hunfin).1
      rw [hstarted] at hidle
      simp at hidle
  remaining h e x hx := by
    have hx' := (hinv.records h e).present x hx
    have hle := eosCount_le fun sender => (s.links (sender, h)).view e
    rw [hx'.remaining]
    refine ⟨by omega, fun hclosed => ?_⟩
    rw [(hx'.closed.mp hclosed).1]
    omega
  quiet h e hfin sender := by
    obtain ⟨heos, hclosing, -⟩ := ((hinv.records h e).finished hfin).2.2 sender
    have hlink := hinv.links (sender, h)
    obtain ⟨hsink, hheaders, hcur⟩ := hlink.ne_of_eos_handled (none_mem_ofExchange.mp heos)
    refine ⟨hsink, hheaders, hcur, fun hengaged => ?_⟩
    obtain hcur' | hr := Receiver.current_or_closing hengaged
    · exact hcur hcur'
    · simp [Link.view, hr] at hclosing

/-- **Safety of the TCP exchange service**, for any number of hosts, any exchanges and any
    interleaving. -/
theorem exchangeTcp_safe (cfg : TcpConfig) {es : List (TcpEvent cfg.numHosts)}
    {s : TcpState cfg.numHosts} (h : Trace cfg.system es s) : TcpSafe s :=
  (h.invariant (I := TcpInv) tcpInv_init fun hinv hstep => hinv.step hstep).safe

end System

/-- Two hosts; on host 1 all messages of exchange 5 arrive before its own `StartExchange`. -/
def earlyMessages : List (TcpEvent 2) :=
  [.sendMessage 0 1 (5, some [7]), .popSink (0, 1), .write (0, 1), .write (0, 1),
    .readHeader (0, 1), .startOnMessage (0, 1), .handleHeader (0, 1), .readByte (0, 1),
    .pushSource (0, 1), .sendMessage 0 1 (5, none), .popSink (0, 1), .write (0, 1),
    .readHeader (0, 1), .startOnMessage (0, 1), .handleHeader (0, 1),
    .sendMessage 1 1 (5, none), .popSink (1, 1), .write (1, 1), .readHeader (1, 1),
    .startOnMessage (1, 1), .handleHeader (1, 1), .closeSource (1, 1),
    .startExchange 1 5, .receiveMessage 1 5, .receiveMessage 1 5, .finishExchange 1 5]

theorem exchangeTcp_safe_earlyMessages :
    ∃ s, Trace (TcpConfig.mk 2 3 16 3).system earlyMessages s ∧
      (s.records (1, 5)).finished = true ∧ TcpSafe s := by
  have hrun : (((TcpConfig.mk 2 3 16 3).system.run (TcpConfig.mk 2 3 16 3).system.init
      earlyMessages).map fun s => (s.records (1, 5)).finished) = some true := by decide
  obtain ⟨s, hs, hfin⟩ := Option.map_eq_some_iff.mp hrun
  exact ⟨s, .of_run hs, hfin, exchangeTcp_safe _ (.of_run hs)⟩

end Jitq.Runtime
