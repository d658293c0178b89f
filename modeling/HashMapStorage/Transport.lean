import HashMapStorage.FramingLaws
import HashMapStorage.Receiving

/-!
# From one process to another

A message is packed out of one memory, written with its length in front, read in
whatever pieces arrive, and made a message of another memory.
-/

namespace HashMapStorage

open Machine

structure Packet where
  mem : Mem
  message : MessageT
  content : Fields
  holds : message.Says mem content
  fits : content.Fits

namespace Packet

/-- What `network_send` and `network_send_receive` write behind the length. -/
def bytes (p : Packet) (pb : ProtobufC) (string : Malloc (List UInt8)) : Exec (List UInt8) := do
  let (messageT, mem) ← toMessageT p.mem p.message string
  let f ← messageT.fields mem
  pure (pb.pack f)

def payload (pb : ProtobufC) (p : Packet) : List UInt8 := pb.pack p.content

theorem bytes_payload (p : Packet) (pb : ProtobufC) (string : Malloc (List UInt8)) :
    p.bytes pb string = .ok (p.payload pb) := by
  obtain ⟨mem', hto, hsays, -⟩ := toMessageT_says p.holds string
  rw [bytes, hto, ok_bind]
  dsimp only
  rw [fields_ok.mpr hsays]
  rfl

/-- Whatever memory the bytes are received in, they become a message that says
what has been sent, an empty string being none. -/
def Arrives (pb : Unpacker) (p : Packet) (frame : List UInt8) : Prop :=
  ∀ mem m, ∃ message mem' copies, networkReceive pb mem frame m = .ok (some message, mem') ∧
    message.Received mem' p.content.noEmpty copies ∧
    strOrNull mem'.strings message.key = .ok p.content.noEmpty.key ∧
    message.cType = p.content.cType

end Packet

theorem restored_noEmpty (f : Fields) : f.restored.noEmpty = f.noEmpty := by
  obtain ⟨opcode, cType, dataSize, data, key, keys, unknown⟩ := f
  cases data <;> cases key <;> simp [Fields.restored, Fields.noEmpty, nonEmpty]

theorem payload_arrives {codec : ProtobufC} {pb : Unpacker} (hpb : pb.unpack = codec.unpack)
    (p : Packet) : p.Arrives pb (p.payload codec) := by
  intro mem m
  obtain ⟨messageT, mem₁, hunpack, hfields, -⟩ := codec.unpack_pack mem p.content p.fits
  rw [← hpb] at hunpack
  obtain ⟨message, mem', copies, hrun, hreceived⟩ :=
    networkReceive_received pb hunpack (fields_ok.mp hfields) m
  rw [restored_noEmpty] at hreceived
  exact ⟨message, mem', copies, hrun, hreceived⟩

/-- However the bytes are cut up on the way, the messages that have been received
are the first ones sent, in their order, and each of them arrives as it was. The
steps of a schedule that are not an EINTR are bounded, and when none is left all
messages have been received. -/
theorem messages_delivered {codec : ProtobufC} {pb : Unpacker} (hpb : pb.unpack = codec.unpack)
    {packets : List Packet} {c : Connection}
    (hl : ∀ p ∈ packets, (p.payload codec).length ≤ 2 ^ 31 - 1)
    (ha : ∀ a ∈ as, Action.healthy a = true)
    (hr : run Connection.step (.start (packets.map (Packet.payload codec))) as = some c) :
    (∀ p ∈ packets, ∀ string, p.bytes codec string = .ok (p.payload codec)) ∧
    (∃ n, List.Forall₂ (Packet.Arrives pb) (packets.take n) c.receiver.received ∧
      (c.Quiet → n = packets.length)) ∧
    as.countP Action.advances ≤ (Connection.start (packets.map (Packet.payload codec))).work := by
  have hints : ∀ m ∈ packets.map (Packet.payload codec), IsInt m.length := by
    intro m hm
    obtain ⟨p, hp, rfl⟩ := List.mem_map.mp hm
    have := hl p hp
    simp only [IsInt, intMin, intMax]
    omega
  obtain ⟨haligned, hsteps⟩ := run_aligned hints ha hr
  obtain ⟨ahead, hreceived⟩ := haligned.receives.received
  have hfront : c.receiver.received =
      (packets.take c.receiver.received.length).map (Packet.payload codec) := by
    rw [List.map_take, hreceived, List.take_left]
  refine ⟨fun p _ => p.bytes_payload codec,
    ⟨c.receiver.received.length, ?_, fun hq => ?_⟩, hsteps⟩
  · have hall : ∀ p ∈ packets.take c.receiver.received.length,
        p.Arrives pb (p.payload codec) := fun p _ => payload_arrives hpb p
    conv_rhs => rw [hfront]
    exact List.forall₂_map_right_iff.mpr (List.forall₂_same.mpr hall)
  · rw [(quiet_complete haligned hq).received, List.length_map]

def twoKeysPacket : Packet where
  mem := twoKeysMem
  message := twoKeys
  content := twoKeysFields
  holds := fields_ok.mp (by decide +kernel)
  fits := ⟨by decide, by decide, by decide, rfl⟩

def sizePacket : Packet where
  mem := ⟨.empty, .empty⟩
  message := ⟨⟨none⟩, opSize, ctNone, 0, none, none, 0, none⟩
  content := ⟨opSize, ctNone, 0, none, none, [], []⟩
  holds := fields_ok.mp (by decide +kernel)
  fits := ⟨by decide, by decide, by decide, rfl⟩

/-- Two messages of `n` and `k` bytes: the first length is read in two pieces, the
first message is written in two, and both sides are interrupted. -/
def inPieces (n k : Nat) : List Action :=
  [.send, .write (.count 4), .receive, .read (.count 1), .read .interrupted, .read (.count 3),
    .send, .write (.count 2), .receive, .read (.count 2), .write .interrupted,
    .write (.count (n - 2)), .send, .send, .write (.count 4), .read (.count (n - 2)), .receive,
    .send, .write (.count k), .send, .receive, .read (.count 4), .receive, .read (.count k),
    .receive]

theorem messages_delivered_two : ∃ c n,
    run Connection.step (.start ([twoKeysPacket, sizePacket].map (Packet.payload protobufWire)))
      (inPieces (twoKeysPacket.payload protobufWire).length
        (sizePacket.payload protobufWire).length) = some c ∧
    c.receiver.received.length = 2 ∧
    List.Forall₂ (Packet.Arrives wireUnpacker) ([twoKeysPacket, sizePacket].take n)
      c.receiver.received := by
  have hview : (run Connection.step
      (.start ([twoKeysPacket, sizePacket].map (Packet.payload protobufWire)))
      (inPieces (twoKeysPacket.payload protobufWire).length
        (sizePacket.payload protobufWire).length)).map
        (fun c => c.receiver.received.length) = some 2 := by decide +kernel
  obtain ⟨c, hr, hlen⟩ := Option.map_eq_some_iff.mp hview
  have hruntime : wireUnpacker.unpack = protobufWire.unpack := rfl
  have hfits : ∀ p ∈ [twoKeysPacket, sizePacket],
      (p.payload protobufWire).length ≤ 2 ^ 31 - 1 := by
    intro p hp
    simp only [List.mem_cons, List.not_mem_nil, or_false] at hp
    rcases hp with rfl | rfl <;> decide +kernel
  have hhealthy : ∀ a ∈ inPieces (twoKeysPacket.payload protobufWire).length
      (sizePacket.payload protobufWire).length, Action.healthy a = true :=
    List.all_eq_true.mp (by decide +kernel)
  obtain ⟨-, ⟨n, harrives, -⟩, -⟩ := messages_delivered hruntime hfits hhealthy hr
  exact ⟨c, n, hr, hlen, harrives⟩

end HashMapStorage
