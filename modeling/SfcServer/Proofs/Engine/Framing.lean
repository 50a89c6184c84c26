import Mathlib.Data.List.TakeWhile
import SfcServer.Proofs.Engine.Requests
import SfcServer.Proofs.Text.Ascii

/-!
# Messages behind one another

A reader takes the bytes of a message by the length that its announcement gives, so that it never
looks at them for lines.  Lines that announce nothing may stand before, between and behind the
messages: what is received are the bodies of the messages, each once and in their order, up to
the one with which the link stops.
-/

namespace SfcServer
namespace Frame

/-!
# Lines
-/

theorem lineLength_append {line : Bytes} (h : lineFeed ∉ line) (rest : Bytes) :
    lineLength (line ++ lineFeed :: rest) = line.length + 1 := by
  induction line with
  | nil =>
      rfl
  | cons b line ih =>
      have hb : b ≠ lineFeed := fun heq => h (heq ▸ List.mem_cons_self)
      rw [List.cons_append, lineLength, if_neg hb,
        ih fun hmem => h (List.mem_cons_of_mem b hmem), List.length_cons]
      omega

def IsLine (line : Bytes) : Prop :=
  exists front, lineFeed ∉ front ∧ line = front ++ [lineFeed]

theorem IsLine.lineLength_append {line : Bytes} (h : IsLine line) (rest : Bytes) :
    lineLength (line ++ rest) = line.length := by
  rcases h with ⟨front, hfront, rfl⟩
  rw [List.append_assoc, List.singleton_append, Frame.lineLength_append hfront,
    List.length_append, List.length_singleton]

theorem IsLine.length_pos {line : Bytes} (h : IsLine line) : 0 < line.length := by
  rcases h with ⟨front, _, rfl⟩
  rw [List.length_append]
  exact Nat.lt_add_left _ Nat.one_pos

theorem isLine_encode {t : Text} (hascii : t.Ascii) (hfeed : '\n' ∉ t) :
    IsLine (Utf8.encode (t ++ ['\n'])) := by
  refine ⟨Utf8.encode t, ?_, Utf8.encode_append t ['\n']⟩
  intro hmem
  rcases List.mem_flatMap.mp hmem with ⟨c, hc, hbyte⟩
  rw [Utf8.utf8EncodeChar_ascii (hascii c hc), List.mem_singleton] at hbyte
  have hnat := congrArg UInt8.toNat hbyte
  rw [Utf8.toNat_byte (hascii c hc)] at hnat
  have heq : c = '\n' := Char.toNat_inj.mp hnat.symm
  exact hfeed (heq ▸ hc)

/-!
# What stands in a stream
-/

structure IsNoise (line : Bytes) : Prop where
  isLine : IsLine line
  silent : ¬ announcement <+: Text.trim (Utf8.decodeSkipping line)

theorem IsNoise.announced? {line : Bytes} (h : IsNoise line) : announced? line = none := by
  have hlead : announcement.isPrefixOf (Text.trim (Utf8.decodeSkipping line)) = false := by
    rw [← Bool.not_eq_true, List.isPrefixOf_iff_prefix]
    exact h.silent
  rw [Frame.announced?, Text.dropLead?, hlead]
  rfl

theorem IsNoise.read_append {line : Bytes} (h : IsNoise line) (rest : Bytes) :
    read (line ++ rest) = .noise line.length := by
  rw [read, h.isLine.lineLength_append, List.take_left, h.announced?]

/-!
# The frame of a message
-/

theorem header_ascii (message : Json) : (header message).Ascii := by
  intro c hc
  rcases List.mem_append.mp hc with hc | hc
  · exact (by decide : announcement.Ascii) c hc
  · rcases List.mem_cons.mp hc with rfl | hc
    · decide
    · exact Text.ofNat_ascii _ c hc

def headerLine (message : Json) : Bytes :=
  Utf8.encode (header message ++ "\r\n".toList)

def divider : Bytes :=
  Utf8.encode "\r\n".toList

theorem encode_eq (message : Json) :
    encode message = headerLine message ++ (divider ++ body message) := by
  have hends : "\r\n\r\n".toList = "\r\n".toList ++ "\r\n".toList := rfl
  rw [encode, headerLine, divider, hends, ← List.append_assoc, Utf8.encode_append,
    List.append_assoc]

theorem headerLine_isLine (message : Json) : IsLine (headerLine message) := by
  have hsplit : header message ++ "\r\n".toList = (header message ++ ['\r']) ++ ['\n'] := by
    rw [List.append_assoc]
    rfl
  rw [headerLine, hsplit]
  refine isLine_encode ?_ ?_
  · intro c hc
    rcases List.mem_append.mp hc with hc | hc
    · exact header_ascii message c hc
    · rw [List.mem_singleton.mp hc]
      decide
  · intro hfeed
    rcases List.mem_append.mp hfeed with hfeed | hfeed
    · rcases List.mem_append.mp hfeed with hfeed | hfeed
      · exact absurd hfeed (by decide)
      · rcases List.mem_cons.mp hfeed with hblank | hdigit
        · cases hblank
        · cases Text.isAsciiDigit_of_mem_ofNat hdigit
    · exact absurd hfeed (by decide)

theorem divider_isLine : IsLine divider :=
  isLine_encode (t := ['\r']) (by decide) (by decide)

theorem announced?_headerLine (message : Json) :
    announced? (headerLine message) = some (some ((body message).length : Int)) := by
  have hascii : Text.Ascii (header message ++ "\r\n".toList) := by
    intro c hc
    rcases List.mem_append.mp hc with hc | hc
    · exact header_ascii message c hc
    · exact (by decide : Text.Ascii "\r\n".toList) c hc
  have htrim : Text.trim (header message ++ "\r\n".toList) = header message := by
    have hright := Text.trimRight_ofNat (announcement ++ [' ']) (body message).length
      "\r\n".toList (by decide)
    have hheader : header message = announcement ++ [' '] ++ Text.ofNat (body message).length := by
      rw [header, List.append_assoc, List.singleton_append]
    rw [Text.trim, hheader]
    exact hright
  have hcolon : (' ' :: Text.ofNat (body message).length).takeWhile (· != ':') =
      ' ' :: Text.ofNat (body message).length := by
    refine List.takeWhile_eq_self_iff.mpr fun c hc => ?_
    rcases List.mem_cons.mp hc with rfl | hc
    · rfl
    · have hdigit := Text.isAsciiDigit_of_mem_ofNat hc
      rw [bne_iff_ne]
      rintro rfl
      cases hdigit
  have hlead : Text.dropLead? announcement (header message) =
      some (' ' :: Text.ofNat (body message).length) := by
    rw [Text.dropLead?, header, if_pos (List.isPrefixOf_iff_prefix.mpr (List.prefix_append _ _)),
      List.drop_left]
  rw [announced?, headerLine, Utf8.decodeSkipping_encode_ascii hascii, htrim, hlead,
    Option.map_some, hcolon, Text.integer?_ofNat]

/-- A message that a frame can hold: no stream delivers more bytes than an index can count. -/
def Fits (message : Json) : Prop :=
  isIndex (body message).length = true

/-- Whatever follows a frame, its message is read, and exactly the frame is taken. -/
theorem read_encode_append {message : Json} (h : Fits message) (rest : Bytes) :
    read (encode message ++ rest) = .message (body message) (encode message).length := by
  have hline : lineLength (encode message ++ rest) = (headerLine message).length := by
    rw [encode_eq, List.append_assoc]
    exact (headerLine_isLine message).lineLength_append _
  have hhead : (encode message ++ rest).drop (headerLine message).length =
      divider ++ (body message ++ rest) := by
    simp [encode_eq]
  have htake : (encode message ++ rest).take (headerLine message).length = headerLine message := by
    simp [encode_eq]
  have hpositive : ¬ ((body message).length : Int) < 0 := Int.not_lt.mpr (Int.natCast_nonneg _)
  have hleft : (encode message ++ rest).drop ((headerLine message).length + divider.length) =
      body message ++ rest := by
    simp [encode_eq]
  have hlength : (encode message).length =
      (headerLine message).length + divider.length + (body message).length := by
    rw [encode_eq, List.length_append, List.length_append, Nat.add_assoc]
  have hfits : isIndex (body message).length = true := h
  rw [read, hline, htake, announced?_headerLine]
  simp only [hhead, divider_isLine.lineLength_append, hfits, Bool.not_true, Bool.false_eq_true,
    if_false, hpositive, Int.toNat_natCast, hleft, List.take_left, hlength]

theorem length_encode_pos (message : Json) : 0 < (encode message).length := by
  rw [encode_eq, List.length_append]
  exact Nat.lt_add_right _ (headerLine_isLine message).length_pos

/-!
# Streams
-/

/-- What stands in a stream: the frame of a message, or a line between frames. -/
inductive Part where
  | message (message : Json)
  | noise (line : Bytes)

namespace Part

def bytes : Part -> Bytes
  | message m => encode m
  | noise line => line

def message? : Part -> Option Json
  | message m => some m
  | noise _ => none

def Sound : Part -> Prop
  | message m => Fits m
  | noise line => IsNoise line

def reading : Part -> Reading
  | message m => .message (body m) (encode m).length
  | noise line => .noise line.length

theorem Sound.read_append {part : Part} (h : part.Sound) (rest : Bytes) :
    read (part.bytes ++ rest) = part.reading := by
  cases part with
  | message m =>
      exact read_encode_append h rest
  | noise line =>
      exact IsNoise.read_append h rest

theorem reading_length (part : Part) : part.reading.length = part.bytes.length := by
  cases part with
  | message | noise =>
      rfl

theorem Sound.length_pos {part : Part} (h : part.Sound) : 0 < part.bytes.length := by
  cases part with
  | message m =>
      exact length_encode_pos m
  | noise line =>
      exact IsLine.length_pos (IsNoise.isLine h)

end Part
end Frame

namespace Link

/-- Receives messages one after the other while the link runs, and nothing after them. -/
def receiveEach : List Bytes -> Link -> Linked
  | [], l => l.failPending "stdout closed"
  | body :: rest, l =>
      if l.running then (l.receive body).andThen (receiveEach rest)
      else l.failPending "stdout closed"

theorem readFrom_stopped {l : Link} (h : l.running = false) (stream : Bytes) :
    l.readFrom stream = l.failPending "stdout closed" := by
  cases stream with
  | nil =>
      rw [readFrom]
  | cons b rest =>
      rw [readFrom, h]
      rfl

/-- What stands at the head of a stream is taken, and reading goes on behind it. -/
theorem readFrom_append {l : Link} (hrunning : l.running = true) {part : Frame.Part}
    (h : part.Sound) (rest : Bytes) :
    l.readFrom (part.bytes ++ rest) = (l.takeReading part.reading).andThen (·.readFrom rest) := by
  have hread := h.read_append rest
  have hlength := part.reading_length
  rcases List.exists_cons_of_length_pos h.length_pos with ⟨b, bytes, hbytes⟩
  rw [hbytes] at hread hlength
  rw [hbytes, List.cons_append, readFrom, hrunning, ← List.cons_append, hread]
  have hrest : (bytes ++ rest).drop ((b :: bytes).length - 1) = rest := by
    simp
  simp only [Bool.not_true, Bool.false_eq_true, if_false, hlength, hrest]
  cases part with
  | message | noise =>
      rfl

theorem receiveEach_stopped {l : Link} (h : l.running = false) (bodies : List Bytes) :
    l.receiveEach bodies = l.failPending "stdout closed" := by
  cases bodies with
  | nil =>
      rfl
  | cons body rest =>
      rw [receiveEach, h]
      rfl

theorem readFrom_parts {parts : List Frame.Part}
    (hsound : forall part, part ∈ parts -> part.Sound) (l : Link) :
    l.readFrom (parts.flatMap Frame.Part.bytes) =
      l.receiveEach ((parts.filterMap Frame.Part.message?).map Frame.body) := by
  induction parts generalizing l with
  | nil =>
      exact readFrom.eq_1 l
  | cons part rest ih =>
      have hrest (l : Link) := ih (fun other h => hsound other (List.mem_cons_of_mem part h)) l
      cases hrunning : l.running with
      | false =>
          rw [readFrom_stopped hrunning, receiveEach_stopped hrunning]
      | true =>
          rw [List.flatMap_cons, readFrom_append hrunning (hsound part List.mem_cons_self)]
          cases part with
          | message m =>
              simp only [List.filterMap_cons, Frame.Part.message?, List.map_cons, receiveEach,
                hrunning, if_true, Linked.andThen, Frame.Part.reading, takeReading, hrest]
          | noise line =>
              simp only [List.filterMap_cons, Frame.Part.message?, Linked.andThen,
                Frame.Part.reading, takeReading, hrest, List.nil_append]

/--
From a stream of frames, with lines that announce nothing anywhere between them, exactly the
bodies of the messages are received, one after the other; and each frame announces as many bytes
as the body of its message has.
-/
theorem frames_received {parts : List Frame.Part}
    (hsound : forall part, part ∈ parts -> part.Sound) (l : Link) :
    l.readFrom (parts.flatMap Frame.Part.bytes) =
        l.receiveEach ((parts.filterMap Frame.Part.message?).map Frame.body) ∧
      forall message, message ∈ parts.filterMap Frame.Part.message? ->
        Frame.announced? ((Frame.encode message).take (Frame.lineLength (Frame.encode message))) =
          some (some ((Frame.body message).length : Int)) := by
  constructor
  · exact readFrom_parts hsound l
  · intro message _
    have hline := (Frame.headerLine_isLine message).lineLength_append
      (Frame.divider ++ Frame.body message)
    rw [Frame.encode_eq, hline, List.take_left, Frame.announced?_headerLine]

def announcingMessage : Json :=
  .obj [("größe", .str "Content-Length: 3\r\n\r\n")]

def noisyParts : List Frame.Part :=
  [.noise (Utf8.encode "größer\n".toList), .message announcingMessage,
    .noise (Utf8.encode "\n".toList), .message (.int 7)]

theorem noisyParts_sound {part : Frame.Part} (h : part ∈ noisyParts) : part.Sound := by
  have hlog : Frame.IsNoise (Utf8.encode "größer\n".toList) :=
    ⟨⟨Utf8.encode "größer".toList, by decide, rfl⟩, by decide +kernel⟩
  have hempty : Frame.IsNoise (Utf8.encode "\n".toList) :=
    ⟨⟨[], by decide, rfl⟩, by decide +kernel⟩
  have hfits : Frame.Fits announcingMessage ∧ Frame.Fits (.int 7) := by
    unfold Frame.Fits
    decide +kernel
  simp only [noisyParts, List.mem_cons, List.not_mem_nil, or_false] at h
  rcases h with rfl | rfl | rfl | rfl
  · exact hlog
  · exact hfits.1
  · exact hempty
  · exact hfits.2

/-- The text that looks like an announcement is part of the first message. -/
theorem frames_received_between_lines :
    (forall part, part ∈ noisyParts -> part.Sound) ∧
      (attach {}).readFrom (noisyParts.flatMap Frame.Part.bytes) =
        (attach {}).receiveEach [Frame.body announcingMessage, Frame.body (.int 7)] ∧
      Frame.announced? (Frame.headerLine announcingMessage) = some (some 48) := by
  have hreceived := frames_received (fun _ h => noisyParts_sound h) (attach {})
  have hannounced := hreceived.2 announcingMessage (by simp [noisyParts, Frame.Part.message?])
  refine ⟨fun _ h => noisyParts_sound h, hreceived.1, ?_⟩
  have hlength : (Frame.body announcingMessage).length = 48 := by
    decide +kernel
  have hline := (Frame.headerLine_isLine announcingMessage).lineLength_append
    (Frame.divider ++ Frame.body announcingMessage)
  rw [Frame.encode_eq, hline, List.take_left, hlength] at hannounced
  exact hannounced

end Link
end SfcServer
