import Phpce.Lib.Buffer
import Phpce.Fcgi.Wire

/-!
# Writing a FastCGI response

`fcgi_write`, `fcgi_flush` and `fcgi_end` of `main/fastcgi.c`, where every write to the descriptor
succeeds. The output buffer is a memory: eight kilobytes of `out_buf`, and behind them the array
`reserved`, which has room for the record that ends the request.

* **`Represents`** — what has been written and what is in the buffer are the records of a list of
  chunks, the last of which may still be open.
* **`fcgiWrite_represents`** — `fcgi_write` adds its string to the chunks, in each of its regimes.
* **`output_round_trip`** — whatever is written to either stream is what a reader of the records
  gets, in order, and one record ends the request.
-/

namespace Phpce

namespace Fcgi

open Bytes Buffer List Nat

/-! ## The writer -/

/-- The fields of `fcgi_request` that writing uses, with the bytes that have gone to the
descriptor. `overrun` says that a store went beyond `reserved`. -/
structure Output where
  id : Nat
  outBuf : Nat → UInt8
  outPos : Nat
  outHdr : Option Nat
  ended : Bool
  overrun : Bool
  written : Bytes

/-- `sizeof(req->out_buf)` -/
def outBufSize : Nat := 8192

/-- `sizeof(fcgi_end_request_rec)`, the length of `reserved`. -/
def endRequestSize : Nat := 16

/-- The header that `fcgi_make_header` fills in. -/
def makeHeader (type : UInt8) (id len pad : Nat) : FcgiHeader where
  version := fcgiVersion1
  type := type
  requestIdB1 := UInt8.ofNat (id >>> 8 &&& 0xff)
  requestIdB0 := UInt8.ofNat (id &&& 0xff)
  contentLengthB1 := UInt8.ofNat (len >>> 8 &&& 0xff)
  contentLengthB0 := UInt8.ofNat (len &&& 0xff)
  paddingLength := UInt8.ofNat pad
  reserved := 0

/-- `((len + 7) & ~7) - len` -/
def padding (len : Nat) : Nat := (len + 7) / 8 * 8 - len

namespace Output

@[simps id outPos outHdr ended overrun written]
def put (req : Output) (pos : Nat) (data : Bytes) : Output :=
  { req with
    outBuf := store req.outBuf pos data
    overrun := req.overrun || decide (outBufSize + endRequestSize < pos + data.length) }

/-- `memcpy` to `out_pos`, which moves on. -/
@[simps id outPos outHdr ended overrun written] def append (req : Output) (data : Bytes) : Output :=
  { req.put req.outPos data with outPos := req.outPos + data.length }

/-- `safe_write` -/
@[simps] def safeWrite (req : Output) (data : Bytes) : Output :=
  { req with written := req.written ++ data }

/-- `fcgi_make_header` for the header at `hdr`, with the padding behind its content. -/
def fcgiMakeHeader (req : Output) (hdr : Nat) (type : UInt8) (len : Nat) : Output :=
  let pad := padding len
  let req := req.put hdr (makeHeader type req.id len pad).bytes
  if pad ≠ 0 then req.put (hdr + 8 + len) (replicate pad 0) else req

@[simps id outPos outHdr ended overrun written]
def openPacket (req : Output) (type : FcgiRequestType) : Output :=
  { req.put (req.outPos + 1) [type.code] with
    outHdr := some req.outPos
    outPos := req.outPos + 8 }

def closePacket (req : Output) : Output :=
  match req.outHdr with
  | some hdr =>
      let len := req.outPos - (hdr + 8)
      { req.fcgiMakeHeader hdr (req.outBuf (hdr + 1)) len with
        outPos := req.outPos + padding len
        outHdr := none }
  | none => req

/-- `fcgi_flush`. The three bytes `reserved` of the body that ends a request are not set. -/
def fcgiFlush (req : Output) (fin : Bool) : Output :=
  let req := req.closePacket
  let len := req.outPos
  if fin then
    let req := (req.fcgiMakeHeader len FcgiRequestType.endRequest.code 8).put (len + 8)
      [0, 0, 0, 0, 0]
    { req.safeWrite (slice req.outBuf 0 (len + endRequestSize)) with outPos := 0 }
  else { req.safeWrite (slice req.outBuf 0 len) with outPos := 0 }

/-- A header goes out with what is in the buffer, and its content right behind it. -/
def writeDirect (req : Output) (type : FcgiRequestType) (data : Bytes) : Output :=
  let req := (req.openPacket type).fcgiMakeHeader req.outPos type.code data.length
  ({ req with outHdr := none }.fcgiFlush false).safeWrite data

/-- The loop of `fcgi_write` over a long string: what is left of it has at most `0xffff` bytes. -/
def writeLarge (type : FcgiRequestType) : Nat → Output → Bytes → Output × Bytes
  | 0, req, str => (req, str)
  | fuel + 1, req, str =>
    if 0xffff < str.length then
      writeLarge type fuel (req.writeDirect type (str.take 0xfff8)) (str.drop 0xfff8)
    else (req, str)

/-- `if (!req->out_hdr) open_packet(req, type)` -/
def openIfClosed (req : Output) (type : FcgiRequestType) : Output :=
  if req.outHdr = none then req.openPacket type else req

/-- `limit`: how much content there is room for. -/
def limit (req : Output) : Int :=
  let limit : Int := outBufSize - req.outPos
  if req.outHdr = none then max (limit - 8) 0 else limit

def switchType (req : Output) (type : FcgiRequestType) : Output :=
  match req.outHdr with
  | some hdr => if req.outBuf (hdr + 1) ≠ type.code then req.closePacket else req
  | none => req

/-- `fcgi_write` -/
def fcgiWrite (req : Output) (type : FcgiRequestType) (str : Bytes) : Output :=
  if str.length = 0 then req
  else
    let req := req.switchType type
    let limit := req.limit
    if str.length < limit then (req.openIfClosed type).append str
    else if str.length - limit < outBufSize - 8 then
      let req := req.openIfClosed type
      let req := if 0 < limit then req.append (str.take limit.toNat) else req
      let req := req.fcgiFlush false
      if limit < str.length then (req.openPacket type).append (str.drop limit.toNat) else req
    else
      let (req, str) := writeLarge type str.length req.closePacket str
      let pad := padding str.length
      let rest := if pad ≠ 0 then 8 - pad else 0
      let req := req.writeDirect type (str.take (str.length - rest))
      if pad ≠ 0 then (req.openPacket type).append (str.drop (str.length - rest)) else req

/-- `fcgi_end` -/
def fcgiEnd (req : Output) : Output :=
  if req.ended then req else { req.fcgiFlush true with ended := true }

end Output

/-- `fcgi_init_request`, with the id of the request read since. The buffer may hold anything. -/
def Output.init (id : Nat) (outBuf : Nat → UInt8) : Output :=
  ⟨id, outBuf, 0, none, false, false, []⟩

/-- The streams that a request writes to. -/
inductive Stream where
  | stdout
  | stderr
  deriving DecidableEq, Repr

def Stream.type : Stream → FcgiRequestType
  | .stdout => .stdout
  | .stderr => .stderr

/-- What a request calls before it ends: `fcgi_write` and `fcgi_flush(req, 0)`. -/
inductive OutputOp where
  | write (stream : Stream) (str : Bytes)
  | flush
  deriving DecidableEq, Repr

def OutputOp.apply (req : Output) : OutputOp → Output
  | .write stream str => req.fcgiWrite stream.type str
  | .flush => req.fcgiFlush false

/-! ## The header -/

theorem toNat_ofNat_and (n : Nat) : (UInt8.ofNat (n &&& 0xff)).toNat = n % 256 := by
  have hand : n &&& 0xff = n % 256 := and_two_pow_sub_one_eq_mod n 8
  rw [UInt8.toNat_ofNat', hand]
  omega

theorem twoBytes_eq {n : Nat} (h : n ≤ 0xffff) :
    (UInt8.ofNat (n >>> 8 &&& 0xff)).toNat <<< 8 + (UInt8.ofNat (n &&& 0xff)).toNat = n := by
  rw [toNat_ofNat_and, toNat_ofNat_and, shiftRight_eq_div_pow, shiftLeft_eq]
  omega

theorem makeHeader_contentLength {type : UInt8} {id len pad : Nat} (h : len ≤ 0xffff) :
    (makeHeader type id len pad).contentLength = len := by
  have hlt : (UInt8.ofNat (len &&& 0xff)).toNat < 2 ^ 8 := UInt8.toNat_lt _
  rw [FcgiHeader.contentLength, makeHeader, ← shiftLeft_add_eq_or_of_lt hlt, twoBytes_eq h]

theorem makeHeader_requestId {type : UInt8} {id len pad : Nat} (h : id ≤ 0xffff) :
    (makeHeader type id len pad).requestId = id := twoBytes_eq h

theorem padding_lt (len : Nat) : padding len < 8 := by
  rw [padding]
  omega

theorem padding_aligned (len : Nat) : (len + padding len) % 8 = 0 := by
  rw [padding]
  omega

theorem padding_eq_zero {len : Nat} (h : len % 8 = 0) : padding len = 0 := by
  rw [padding]
  omega

/-! ## Chunks -/

structure Chunk where
  stream : Stream
  content : Bytes
  length_le : content.length ≤ 0xffff

def Chunk.record (id : Nat) (c : Chunk) : Record where
  header := makeHeader c.stream.type.code id c.content.length (padding c.content.length)
  content := c.content
  padding := replicate (padding c.content.length) 0
  version := UInt8.le_refl _
  contentLength := makeHeader_contentLength c.length_le
  paddingLength := by
    have hlt := padding_lt c.content.length
    rw [List.length_replicate, makeHeader, UInt8.toNat_ofNat']
    omega

theorem Chunk.encode_record (id : Nat) (c : Chunk) : (c.record id).encode =
    (makeHeader c.stream.type.code id c.content.length (padding c.content.length)).bytes ++
      (c.content ++ replicate (padding c.content.length) 0) := rfl

def encodeChunks (id : Nat) (cs : List Chunk) : Bytes := cs.flatMap fun c => (c.record id).encode

def streamContent (stream : Stream) (cs : List Chunk) : Bytes :=
  cs.flatMap fun c => if c.stream = stream then c.content else []

theorem encodeChunks_concat (id : Nat) (cs : List Chunk) (c : Chunk) :
    encodeChunks id (cs ++ [c]) = encodeChunks id cs ++ (c.record id).encode := by
  rw [encodeChunks, flatMap_append, flatMap_singleton, encodeChunks]

theorem streamContent_concat (stream : Stream) (cs : List Chunk) (c : Chunk) :
    streamContent stream (cs ++ [c]) =
      streamContent stream cs ++ if c.stream = stream then c.content else [] := by
  rw [streamContent, flatMap_append, flatMap_singleton, streamContent]

/-- No packet is open: what went out and what is in the buffer are the records of `cs`. -/
structure Closed (id : Nat) (req : Output) (cs : List Chunk) : Prop where
  id_eq : req.id = id
  running : req.ended = false
  inside : req.overrun = false
  hdr_eq : req.outHdr = none
  aligned : req.outPos % 8 = 0
  bytes : req.written ++ slice req.outBuf 0 req.outPos = encodeChunks id cs

/-- The packet at `hdr` is open: the records of `cs` stand before it, and `content` is in it. -/
structure Opened (id : Nat) (req : Output) (cs : List Chunk) (hdr : Nat) (stream : Stream)
    (content : Bytes) : Prop where
  id_eq : req.id = id
  running : req.ended = false
  inside : req.overrun = false
  hdr_eq : req.outHdr = some hdr
  aligned : hdr % 8 = 0
  pos_eq : req.outPos = hdr + 8 + content.length
  type_eq : req.outBuf (hdr + 1) = stream.type.code
  bytes : req.written ++ slice req.outBuf 0 hdr = encodeChunks id cs
  content_eq : slice req.outBuf (hdr + 8) content.length = content

/-! ## Packets -/

namespace Output

variable {req : Output} {data : Bytes} {pos hdr len n : Nat} {type : FcgiRequestType}

@[simp] theorem put_outBuf : (req.put pos data).outBuf = store req.outBuf pos data := rfl

@[simp] theorem append_outBuf : (req.append data).outBuf = store req.outBuf req.outPos data := rfl

@[simp] theorem openPacket_outBuf :
    (req.openPacket type).outBuf = store req.outBuf (req.outPos + 1) [type.code] := rfl

theorem put_inside (h : pos + data.length ≤ outBufSize + endRequestSize) :
    (req.put pos data).overrun = req.overrun := by
  rw [put_overrun, decide_eq_false (Nat.not_lt.mpr h), Bool.or_false]

section MakeHeader

variable {code : UInt8}

theorem fcgiMakeHeader_eq : req.fcgiMakeHeader hdr code len =
    { req with
      outBuf := (req.fcgiMakeHeader hdr code len).outBuf
      overrun := (req.fcgiMakeHeader hdr code len).overrun } := by
  unfold fcgiMakeHeader
  dsimp only
  split <;> rfl

theorem fcgiMakeHeader_id : (req.fcgiMakeHeader hdr code len).id = req.id := by
  rw [fcgiMakeHeader_eq]

theorem fcgiMakeHeader_ended : (req.fcgiMakeHeader hdr code len).ended = req.ended := by
  rw [fcgiMakeHeader_eq]

theorem fcgiMakeHeader_written : (req.fcgiMakeHeader hdr code len).written = req.written := by
  rw [fcgiMakeHeader_eq]

theorem fcgiMakeHeader_outBuf : (req.fcgiMakeHeader hdr code len).outBuf =
    store (store req.outBuf hdr (makeHeader code req.id len (padding len)).bytes) (hdr + 8 + len)
      (replicate (padding len) 0) := by
  unfold fcgiMakeHeader
  dsimp only
  split
  · rfl
  · rename_i hpad
    rw [Classical.not_not.mp hpad, replicate_zero, store_nil, put_outBuf]

theorem fcgiMakeHeader_inside (hhdr : hdr + 8 ≤ outBufSize + endRequestSize)
    (hpad : padding len ≠ 0 → hdr + 8 + len + padding len ≤ outBufSize + endRequestSize) :
    (req.fcgiMakeHeader hdr code len).overrun = req.overrun := by
  have hput : (req.put hdr (makeHeader code req.id len (padding len)).bytes).overrun =
      req.overrun := put_inside hhdr
  unfold fcgiMakeHeader
  dsimp only
  split
  · rename_i h
    rw [put_inside (by rw [length_replicate]; exact hpad h), hput]
  · exact hput

theorem fcgiMakeHeader_before (h : n ≤ hdr) :
    slice (req.fcgiMakeHeader hdr code len).outBuf 0 n = slice req.outBuf 0 n := by
  rw [fcgiMakeHeader_outBuf, slice_store_before (by omega), slice_store_before (by omega)]

theorem fcgiMakeHeader_header : slice (req.fcgiMakeHeader hdr code len).outBuf hdr 8 =
    (makeHeader code req.id len (padding len)).bytes := by
  rw [fcgiMakeHeader_outBuf, slice_store_before (by omega)]
  exact slice_store_self _ hdr (makeHeader code req.id len (padding len)).bytes

theorem fcgiMakeHeader_content : slice (req.fcgiMakeHeader hdr code len).outBuf (hdr + 8) len =
    slice req.outBuf (hdr + 8) len := by
  have hlen : (makeHeader code req.id len (padding len)).bytes.length = 8 := rfl
  rw [fcgiMakeHeader_outBuf, slice_store_before (Nat.le_refl _),
    slice_store_after (by rw [hlen])]

theorem fcgiMakeHeader_padding :
    slice (req.fcgiMakeHeader hdr code len).outBuf (hdr + 8 + len) (padding len) =
      replicate (padding len) 0 := by
  have hself := slice_store_self
    (store req.outBuf hdr (makeHeader code req.id len (padding len)).bytes) (hdr + 8 + len)
    (replicate (padding len) 0)
  rwa [length_replicate, ← fcgiMakeHeader_outBuf] at hself

end MakeHeader

theorem closePacket_some (h : req.outHdr = some hdr) : req.closePacket =
    { req.fcgiMakeHeader hdr (req.outBuf (hdr + 1)) (req.outPos - (hdr + 8)) with
      outPos := req.outPos + padding (req.outPos - (hdr + 8))
      outHdr := none } := by
  unfold closePacket
  simp only [h]

theorem closePacket_slice (h : req.outHdr = some hdr) (hpos : req.outPos = hdr + 8 + len) :
    slice req.closePacket.outBuf 0 req.closePacket.outPos = slice req.outBuf 0 hdr ++
      ((makeHeader (req.outBuf (hdr + 1)) req.id len (padding len)).bytes ++
        (slice req.outBuf (hdr + 8) len ++ replicate (padding len) 0)) := by
  have hlen : req.outPos - (hdr + 8) = len := by omega
  have hsplit : req.outPos + padding len = hdr + (8 + (len + padding len)) := by omega
  rw [closePacket_some h, hlen]
  dsimp only
  rw [hsplit, slice_add, slice_add, slice_add, Nat.zero_add, fcgiMakeHeader_before le_rfl,
    fcgiMakeHeader_header, fcgiMakeHeader_content, fcgiMakeHeader_padding]

end Output

section Packets

open Output

variable {id hdr : Nat} {req : Output} {cs : List Chunk} {stream : Stream} {content data : Bytes}

theorem room_of_outPos_zero (h : req.outPos = 0) :
    req.outPos + 8 ≤ outBufSize + endRequestSize := by
  rw [h]
  decide

theorem Closed.openPacket (h : Closed id req cs) (stream : Stream)
    (hroom : req.outPos + 8 ≤ outBufSize + endRequestSize) :
    Opened id (req.openPacket stream.type) cs req.outPos stream [] where
  id_eq := h.id_eq
  running := h.running
  inside := by
    rw [openPacket_overrun, put_inside (by simp only [length_singleton]; omega), h.inside]
  hdr_eq := rfl
  aligned := h.aligned
  pos_eq := rfl
  type_eq := by
    have hstore : store req.outBuf (req.outPos + 1) [stream.type.code] (req.outPos + 1 + 0) = _ :=
      store_at Nat.zero_lt_one
    exact hstore
  bytes := by
    rw [openPacket_written, put_written, openPacket_outBuf, slice_store_before (by omega), h.bytes]
  content_eq := rfl

theorem Opened.append (h : Opened id req cs hdr stream content) (data : Bytes)
    (hroom : req.outPos + data.length ≤ outBufSize + endRequestSize) :
    Opened id (req.append data) cs hdr stream (content ++ data) where
  id_eq := h.id_eq
  running := h.running
  inside := by
    rw [append_overrun, put_inside hroom, h.inside]
  hdr_eq := h.hdr_eq
  aligned := h.aligned
  pos_eq := by
    rw [append_outPos, h.pos_eq, length_append, Nat.add_assoc]
  type_eq := by
    have hpos := h.pos_eq
    rw [append_outBuf, store_before (by omega), h.type_eq]
  bytes := by
    have hpos := h.pos_eq
    rw [append_written, put_written, append_outBuf, slice_store_before (by omega), h.bytes]
  content_eq := by
    rw [append_outBuf, h.pos_eq, length_append, slice_store_append, h.content_eq]

theorem Opened.closePacket (h : Opened id req cs hdr stream content)
    (hle : content.length ≤ 0xffff)
    (hroom : req.outPos + padding content.length ≤ outBufSize + endRequestSize) :
    Closed id req.closePacket (cs ++ [⟨stream, content, hle⟩]) ∧
      req.closePacket.outPos = req.outPos + padding content.length := by
  have hpos := h.pos_eq
  have hlen : req.outPos - (hdr + 8) = content.length := by omega
  have hslice := closePacket_slice h.hdr_eq hpos
  rw [h.type_eq, h.content_eq, h.id_eq] at hslice
  have heq := closePacket_some h.hdr_eq
  rw [hlen] at heq
  refine ⟨⟨?_, ?_, ?_, by rw [heq], ?_, ?_⟩, by rw [heq]⟩
  · rw [heq]
    exact fcgiMakeHeader_id.trans h.id_eq
  · rw [heq]
    exact fcgiMakeHeader_ended.trans h.running
  · have hhdr : hdr + 8 ≤ outBufSize + endRequestSize := by omega
    rw [heq]
    exact (fcgiMakeHeader_inside hhdr fun _ => by omega).trans h.inside
  · have haligned := h.aligned
    have hpadding := padding_aligned content.length
    rw [heq]
    dsimp only
    omega
  · rw [hslice, heq]
    dsimp only
    rw [fcgiMakeHeader_written, ← append_assoc, h.bytes, encodeChunks_concat]
    rfl

theorem Closed.flush (h : Closed id req.closePacket cs) :
    Closed id (req.fcgiFlush false) cs ∧ (req.fcgiFlush false).outPos = 0 := by
  refine ⟨⟨h.id_eq, h.running, h.inside, h.hdr_eq, rfl, ?_⟩, rfl⟩
  rw [← h.bytes]
  exact append_nil _

theorem Closed.closePacket_eq (h : Closed id req cs) : req.closePacket = req := by
  unfold closePacket
  rw [h.hdr_eq]

theorem writeDirect_eq {type : FcgiRequestType} {data : Bytes} {made : Output}
    (hmade : (req.openPacket type).fcgiMakeHeader req.outPos type.code data.length = made) :
    req.writeDirect type data =
      { made with
        outHdr := none
        outPos := 0
        written := made.written ++ slice made.outBuf 0 made.outPos ++ data } := by
  unfold Output.writeDirect
  rw [hmade]
  rfl

theorem Closed.writeDirect (h : Closed id req cs) (stream : Stream) (data : Bytes)
    (hroom : req.outPos + 8 ≤ outBufSize + endRequestSize) (haligned : data.length % 8 = 0)
    (hle : data.length ≤ 0xffff) :
    Closed id (req.writeDirect stream.type data) (cs ++ [⟨stream, data, hle⟩]) ∧
      (req.writeDirect stream.type data).outPos = 0 := by
  have hopened := h.openPacket stream hroom
  have hpadding := padding_eq_zero haligned
  generalize hmade : (req.openPacket stream.type).fcgiMakeHeader req.outPos stream.type.code
    data.length = made
  have hid : made.id = id := by
    rw [← hmade, fcgiMakeHeader_id]
    exact hopened.id_eq
  have hended : made.ended = false := by
    rw [← hmade, fcgiMakeHeader_ended]
    exact hopened.running
  have hinside : made.overrun = false := by
    rw [← hmade, fcgiMakeHeader_inside hroom fun hne => absurd hpadding hne]
    exact hopened.inside
  have hpos : made.outPos = req.outPos + 8 := by
    rw [← hmade, fcgiMakeHeader_eq]
    exact hopened.pos_eq
  have hsent : made.written ++ slice made.outBuf 0 made.outPos =
      encodeChunks id cs ++ (makeHeader stream.type.code id data.length 0).bytes := by
    rw [hpos, slice_add, Nat.zero_add, ← append_assoc, ← hmade, fcgiMakeHeader_written,
      fcgiMakeHeader_before le_rfl, fcgiMakeHeader_header, hopened.id_eq, hopened.bytes, hpadding]
  rw [writeDirect_eq hmade]
  refine ⟨⟨hid, hended, hinside, rfl, rfl, ?_⟩, rfl⟩
  show made.written ++ slice made.outBuf 0 made.outPos ++ data ++ slice made.outBuf 0 0 = _
  rw [slice_zero, append_nil, hsent, encodeChunks_concat, Chunk.encode_record, hpadding,
    replicate_zero, append_nil, append_assoc]

end Packets

/-! ## Writing -/

/-- The chunks `cs'` carry on `stream` what `cs` do and then `str`, and on the other stream the
same. -/
def Appends (stream : Stream) (str : Bytes) (cs cs' : List Chunk) : Prop :=
  ∀ s, streamContent s cs' = streamContent s cs ++ if s = stream then str else []

section Appends

variable {stream : Stream} {str str' : Bytes} {cs cs' cs'' : List Chunk}

theorem Appends.refl (stream : Stream) (cs : List Chunk) : Appends stream [] cs cs := by
  intro s
  rw [ite_self, append_nil]

theorem Appends.congr (h : Appends stream str cs cs') (heq : str = str') :
    Appends stream str' cs cs' := heq ▸ h

theorem Appends.trans (h : Appends stream str cs cs') (h' : Appends stream str' cs' cs'') :
    Appends stream (str ++ str') cs cs'' := by
  intro s
  rw [h' s, h s, append_assoc]
  split
  · rfl
  · rfl

theorem Appends.concat (hle : str.length ≤ 0xffff) :
    Appends stream str cs (cs ++ [⟨stream, str, hle⟩]) := by
  intro s
  rw [streamContent_concat]
  simp only [eq_comm]

theorem Appends.extend (hle : str.length ≤ 0xffff) (hle' : (str ++ str').length ≤ 0xffff) :
    Appends stream str' (cs ++ [⟨stream, str, hle⟩]) (cs ++ [⟨stream, str ++ str', hle'⟩]) := by
  intro s
  rw [streamContent_concat, streamContent_concat, append_assoc]
  by_cases hs : s = stream
  · simp only [hs, if_true]
  · simp only [hs, Ne.symm hs, if_false, append_nil]

end Appends

/-- What has been written and what is in the buffer are the records of `cs`. Where a packet is open,
it is the last of them, it is one of `stream`, and there is room in it. -/
inductive Represents (id : Nat) (req : Output) (stream : Stream) : List Chunk → Prop where
  | closed {cs : List Chunk} (h : Closed id req cs) (hle : req.outPos ≤ outBufSize) :
      Represents id req stream cs
  | opened {cs : List Chunk} {hdr : Nat} {content : Bytes} (hle : content.length ≤ 0xffff)
      (h : Opened id req cs hdr stream content) (hlt : req.outPos < outBufSize) :
      Represents id req stream (cs ++ [⟨stream, content, hle⟩])

section Write

variable {id : Nat} {req : Output} {cs : List Chunk} {stream : Stream}

open Output

theorem Represents.closePacket (h : Represents id req stream cs) :
    Closed id req.closePacket cs ∧ req.closePacket.outPos ≤ outBufSize := by
  cases h with
  | closed h hle =>
    rw [h.closePacket_eq]
    exact ⟨h, hle⟩
  | @opened cs hdr content hle h hlt =>
    have hpos := h.pos_eq
    have haligned := h.aligned
    have hlt8 := padding_lt content.length
    have hmod := padding_aligned content.length
    rw [outBufSize] at hlt
    have hroom : req.outPos + padding content.length ≤ 8192 := by omega
    obtain ⟨hclosed, hclose⟩ := h.closePacket hle (by rw [outBufSize, endRequestSize]; omega)
    exact ⟨hclosed, by rw [hclose, outBufSize]; exact hroom⟩

theorem Represents.flush (h : Represents id req stream cs) :
    Closed id (req.fcgiFlush false) cs ∧ (req.fcgiFlush false).outPos = 0 :=
  h.closePacket.1.flush

theorem Represents.switchType (h : Represents id req stream cs) (s : Stream) :
    Represents id (req.switchType s.type) s cs := by
  cases h with
  | closed h hle =>
    unfold Output.switchType
    rw [h.hdr_eq]
    exact .closed h hle
  | @opened cs hdr content hle h hlt =>
    have hclose := (Represents.opened hle h hlt).closePacket
    unfold Output.switchType
    rw [h.hdr_eq]
    dsimp only
    rw [h.type_eq]
    by_cases hs : stream = s
    · subst hs
      rw [if_neg (not_not.mpr rfl)]
      exact .opened hle h hlt
    · have hcode : stream.type.code ≠ s.type.code := by
        cases stream <;> cases s <;> simp_all [Stream.type, FcgiRequestType.code]
      rw [if_pos hcode]
      exact .closed hclose.1 hclose.2

theorem Represents.openIfClosed (h : Represents id req stream cs) :
    ∃ cs' hdr content, ∃ hle : content.length ≤ 0xffff, ∃ limit : Nat,
      Opened id (req.openIfClosed stream.type) cs' hdr stream content ∧
      Appends stream [] cs (cs' ++ [⟨stream, content, hle⟩]) ∧ req.limit = limit ∧
      ((req.openIfClosed stream.type).outPos + limit = outBufSize ∨
        limit = 0 ∧ (req.openIfClosed stream.type).outPos = outBufSize + 8) := by
  cases h with
  | closed h hle =>
    have haligned := h.aligned
    have hopen : req.openIfClosed stream.type = req.openPacket stream.type :=
      if_pos h.hdr_eq
    rw [hopen, openPacket_outPos]
    rw [outBufSize] at hle
    refine ⟨cs, req.outPos, [], Nat.zero_le _, outBufSize - req.outPos - 8,
      h.openPacket stream (by rw [outBufSize, endRequestSize]; omega), Appends.concat _, ?_, ?_⟩
    · rw [Output.limit, if_pos h.hdr_eq, outBufSize]
      omega
    · rw [outBufSize]
      omega
  | @opened cs hdr content hle h hlt =>
    have hopen : req.openIfClosed stream.type = req := by
      unfold Output.openIfClosed
      rw [h.hdr_eq, if_neg (by simp)]
    rw [hopen]
    rw [outBufSize] at hlt
    refine ⟨cs, hdr, content, hle, outBufSize - req.outPos, h, Appends.refl _ _, ?_, ?_⟩
    · rw [Output.limit, h.hdr_eq, if_neg (by simp), outBufSize]
      omega
    · rw [outBufSize]
      omega

theorem Represents.writeSmall (h : Represents id req stream cs) {str : Bytes}
    (hlt : str.length < req.limit) :
    ∃ cs', Represents id ((req.openIfClosed stream.type).append str) stream cs' ∧
      Appends stream str cs cs' := by
  obtain ⟨cs', hdr, content, hle, limit, hopened, happends, hlimit, hroom⟩ := h.openIfClosed
  have hpos := hopened.pos_eq
  have hfits : str.length < limit := by
    rw [hlimit] at hlt
    exact Int.ofNat_lt.mp hlt
  rw [outBufSize] at hroom
  have hle' : (content ++ str).length ≤ 0xffff := by
    rw [length_append]
    omega
  refine ⟨_, .opened hle' (hopened.append str ?_) ?_, ?_⟩
  · rw [outBufSize, endRequestSize]
    omega
  · rw [append_outPos, outBufSize]
    omega
  · exact happends.trans (Appends.extend hle hle')

theorem Represents.writeMedium (h : Represents id req stream cs) {str : Bytes}
    (hge : ¬str.length < req.limit) (hlt : str.length - req.limit < outBufSize - 8) :
    ∃ cs', Represents id
        (let req' := req.openIfClosed stream.type
        let req' := if 0 < req.limit then req'.append (str.take req.limit.toNat) else req'
        let req' := req'.fcgiFlush false
        if req.limit < str.length then
          (req'.openPacket stream.type).append (str.drop req.limit.toNat)
        else req') stream cs' ∧
      Appends stream str cs cs' := by
  obtain ⟨cs', hdr, content, hle, limit, hopened, happends, hlimit, hroom⟩ := h.openIfClosed
  rw [hlimit] at hge hlt ⊢
  have hge' : limit ≤ str.length := Nat.not_lt.mp fun h => hge (Int.ofNat_lt.mpr h)
  rw [outBufSize] at hlt hroom
  have htake : (str.take limit).length = limit := length_take_of_le hge'
  have hpos := hopened.pos_eq
  have hle' : (content ++ str.take limit).length ≤ 0xffff := by
    rw [length_append, htake]
    omega
  -- what fits is in the buffer
  have hfill : ∃ req', (if 0 < (limit : Int) then
        (req.openIfClosed stream.type).append (str.take limit)
        else req.openIfClosed stream.type) = req' ∧
      Opened id req' cs' hdr stream (content ++ str.take limit) ∧
      (req'.outPos = 8192 ∨ req'.outPos = 8200) := by
    by_cases hzero : 0 < (limit : Int)
    · refine ⟨_, if_pos hzero, hopened.append _ ?_, ?_⟩
      · rw [htake, outBufSize, endRequestSize]
        omega
      · rw [append_outPos, htake]
        omega
    · have hlimit0 : limit = 0 := by omega
      refine ⟨_, if_neg hzero, ?_, by omega⟩
      rw [hlimit0, take_zero, append_nil]
      exact hopened
  obtain ⟨req', hreq', hopened', hpos'⟩ := hfill
  have hpadding := padding_lt (content ++ str.take limit).length
  have hclose : req'.outPos + padding (content ++ str.take limit).length ≤
      outBufSize + endRequestSize := by
    rw [outBufSize, endRequestSize]
    omega
  obtain ⟨hflush, hzero⟩ := (hopened'.closePacket hle' hclose).1.flush
  have happends' := happends.trans (Appends.extend hle hle')
  rw [nil_append] at happends'
  dsimp only
  rw [Int.toNat_natCast, hreq']
  by_cases hrest : (limit : Int) < str.length
  · have hdrop : (str.drop limit).length = str.length - limit := length_drop
    have hfits : ((req'.fcgiFlush false).openPacket stream.type).outPos +
        (str.drop limit).length ≤ outBufSize + endRequestSize := by
      rw [openPacket_outPos, hzero, hdrop, outBufSize, endRequestSize]
      omega
    have hopened'' :=
      (hflush.openPacket stream (room_of_outPos_zero hzero)).append (str.drop limit) hfits
    have hle'' : (str.drop limit).length ≤ 0xffff := by omega
    rw [if_pos hrest]
    refine ⟨_, .opened hle'' hopened'' ?_, ?_⟩
    · rw [append_outPos, openPacket_outPos, hzero, hdrop, outBufSize]
      omega
    · have hall := happends'.trans (Appends.concat hle'')
      rwa [take_append_drop] at hall
  · have hall : str.take limit = str := take_of_length_le (by omega)
    rw [if_neg hrest]
    exact ⟨_, .closed hflush (by rw [hzero]; exact Nat.zero_le _), happends'.congr hall⟩

theorem Closed.writeLarge {fuel : Nat} (h : Closed id req cs) (stream : Stream) (str : Bytes)
    (hroom : req.outPos + 8 ≤ outBufSize + endRequestSize) (hfuel : str.length ≤ fuel) :
    ∃ cs' sent, Closed id (writeLarge stream.type fuel req str).1 cs' ∧
      (writeLarge stream.type fuel req str).1.outPos + 8 ≤ outBufSize + endRequestSize ∧
      Appends stream sent cs cs' ∧ sent ++ (writeLarge stream.type fuel req str).2 = str ∧
      (writeLarge stream.type fuel req str).2.length ≤ 0xffff := by
  -- induction on the fuel, of which every round uses one and at least a byte of the string
  induction fuel generalizing req str cs with
  | zero =>
    exact ⟨cs, [], h, hroom, Appends.refl _ _, rfl,
      Nat.le_trans hfuel (Nat.zero_le _)⟩
  | succ fuel ih =>
    rw [Output.writeLarge]
    by_cases hlong : 0xffff < str.length
    · rw [if_pos hlong]
      have htake : (str.take 0xfff8).length = 0xfff8 := length_take_of_le (by omega)
      have hdrop : (str.drop 0xfff8).length ≤ fuel := by
        rw [length_drop]
        omega
      have hle : (str.take 0xfff8).length ≤ 0xffff := by omega
      obtain ⟨hdirect, hzero⟩ := h.writeDirect stream (str.take 0xfff8) hroom
        (by rw [htake]) hle
      obtain ⟨cs', sent, hclosed, hroom', happends, hsent, hrest⟩ := ih hdirect _
        (room_of_outPos_zero hzero) hdrop
      refine ⟨cs', str.take 0xfff8 ++ sent, hclosed, hroom',
        (Appends.concat hle).trans happends, ?_, hrest⟩
      rw [append_assoc, hsent, take_append_drop]
    · rw [if_neg hlong]
      exact ⟨cs, [], h, hroom, Appends.refl _ _, rfl, Nat.not_lt.mp hlong⟩

theorem Represents.writeHuge (h : Represents id req stream cs) (str : Bytes) :
    ∃ cs', Represents id
        (let (req, str) := Output.writeLarge stream.type str.length req.closePacket str
        let pad := padding str.length
        let rest := if pad ≠ 0 then 8 - pad else 0
        let req := req.writeDirect stream.type (str.take (str.length - rest))
        if pad ≠ 0 then
          (req.openPacket stream.type).append (str.drop (str.length - rest))
        else req) stream cs' ∧
      Appends stream str cs cs' := by
  obtain ⟨hclosed, hpos⟩ := h.closePacket
  obtain ⟨cs', sent, hlarge, hroom, happends, hsent, hrest⟩ := hclosed.writeLarge
    stream str
    (Nat.add_le_add hpos (by rw [endRequestSize]; omega)) (Nat.le_refl _)
  dsimp only
  generalize Output.writeLarge stream.type str.length req.closePacket str = result at *
  obtain ⟨req', str'⟩ := result
  dsimp only at *
  set rest := if padding str'.length ≠ 0 then 8 - padding str'.length else 0 with hrestdef
  have hrest_eq : rest = str'.length % 8 := by
    rw [hrestdef, padding]
    split <;> omega
  have hmod : str'.length % 8 ≤ str'.length := mod_le _ _
  have htake : (str'.take (str'.length - rest)).length = str'.length - rest :=
    length_take_of_le (sub_le _ _)
  have hle : (str'.take (str'.length - rest)).length ≤ 0xffff := by omega
  obtain ⟨hdirect, hzero⟩ := hlarge.writeDirect stream (str'.take (str'.length - rest))
    hroom (by omega) hle
  have hsecond : Appends stream (str'.take (str'.length - rest)) cs' (cs' ++ [⟨stream, _, hle⟩]) :=
    Appends.concat hle
  have happends' := happends.trans hsecond
  by_cases hpad : padding str'.length ≠ 0
  · rw [if_pos hpad]
    have hdrop : (str'.drop (str'.length - rest)).length < 8 := by
      rw [length_drop]
      omega
    have hopened := (hdirect.openPacket stream (room_of_outPos_zero hzero)).append
      (str'.drop (str'.length - rest))
      (by rw [openPacket_outPos, hzero, outBufSize, endRequestSize]; omega)
    have hle' : (str'.drop (str'.length - rest)).length ≤ 0xffff := by omega
    refine ⟨_, .opened hle' hopened ?_, ?_⟩
    · rw [append_outPos, openPacket_outPos, hzero, outBufSize]
      omega
    · have hall := happends'.trans (Appends.concat hle')
      rwa [append_assoc, take_append_drop, hsent] at hall
  · rw [if_neg hpad]
    have hrest0 : rest = 0 := by rw [hrestdef, if_neg hpad]
    refine ⟨_, .closed hdirect (by rw [hzero]; exact Nat.zero_le _), happends'.congr ?_⟩
    rw [hrest0, Nat.sub_zero, take_length, hsent]

theorem fcgiWrite_represents (h : Represents id req stream cs) (s : Stream) (str : Bytes) :
    ∃ cs', (∃ stream', Represents id (req.fcgiWrite s.type str) stream' cs') ∧
      Appends s str cs cs' := by
  unfold Output.fcgiWrite
  by_cases hnil : str.length = 0
  · rw [if_pos hnil, length_eq_zero_iff.mp hnil]
    exact ⟨cs, ⟨stream, h⟩, Appends.refl _ _⟩
  · rw [if_neg hnil]
    have hswitch := h.switchType s
    dsimp only
    by_cases hsmall : str.length < (req.switchType s.type).limit
    · rw [if_pos hsmall]
      obtain ⟨cs', hrep, happends⟩ := hswitch.writeSmall hsmall
      exact ⟨cs', ⟨s, hrep⟩, happends⟩
    · rw [if_neg hsmall]
      by_cases hmedium : str.length - (req.switchType s.type).limit < outBufSize - 8
      · rw [if_pos hmedium]
        obtain ⟨cs', hrep, happends⟩ := hswitch.writeMedium hsmall hmedium
        exact ⟨cs', ⟨s, hrep⟩, happends⟩
      · rw [if_neg hmedium]
        obtain ⟨cs', hrep, happends⟩ := hswitch.writeHuge str
        exact ⟨cs', ⟨s, hrep⟩, happends⟩

end Write

/-! ## The end -/

def endRecord (id : Nat) (body : Bytes) (h : body.length = 8) : Record where
  header := makeHeader FcgiRequestType.endRequest.code id 8 (padding 8)
  content := body
  padding := []
  version := UInt8.le_refl _
  contentLength := by
    rw [h]
    exact makeHeader_contentLength (by decide)
  paddingLength := rfl

theorem endRecord_encode (id : Nat) (body : Bytes) (h : body.length = 8) :
    (endRecord id body h).encode =
      (makeHeader FcgiRequestType.endRequest.code id 8 (padding 8)).bytes ++ body := by
  rw [Record.encode]
  exact congrArg _ (append_nil body)

theorem Represents.running {id : Nat} {req : Output} {cs : List Chunk} {stream : Stream}
    (h : Represents id req stream cs) : req.ended = false := by
  cases h with
  | closed h _ => exact h.running
  | opened _ h _ => exact h.running

namespace Output

/-- The buffer with its packet closed, and at the end of the request one record more behind it. -/
def sealed (req : Output) (fin : Bool) : Output :=
  let req := req.closePacket
  if fin then
    (req.fcgiMakeHeader req.outPos FcgiRequestType.endRequest.code 8).put (req.outPos + 8)
      [0, 0, 0, 0, 0]
  else req

/-- What `fcgi_flush` hands to `safe_write`. -/
def pending (req : Output) (fin : Bool) : Bytes :=
  slice (req.sealed fin).outBuf 0
    (if fin then req.closePacket.outPos + endRequestSize else req.closePacket.outPos)

theorem fcgiFlush_eq (req : Output) (fin : Bool) :
    req.fcgiFlush fin = { (req.sealed fin).safeWrite (req.pending fin) with outPos := 0 } := by
  cases fin <;> rfl

theorem closePacket_id (req : Output) : req.closePacket.id = req.id := by
  unfold closePacket
  split
  · exact fcgiMakeHeader_id
  · rfl

theorem pending_end (req : Output) :
    ∃ body, ∃ hlen : body.length = 8, body.take 5 = [0, 0, 0, 0, 0] ∧
      req.pending true = slice req.closePacket.outBuf 0 req.closePacket.outPos ++
        (endRecord req.id body hlen).encode := by
  set req' := req.closePacket with hreq
  set marked := req'.fcgiMakeHeader req'.outPos FcgiRequestType.endRequest.code 8
  obtain ⟨body, hbody⟩ : ∃ body,
      body = [0, 0, 0, 0, 0] ++ slice marked.outBuf (req'.outPos + 8 + 5) 3 := ⟨_, rfl⟩
  have hlen : body.length = 8 := by
    rw [hbody]
    rfl
  have hpending : req.pending true =
      slice (marked.put (req'.outPos + 8) [0, 0, 0, 0, 0]).outBuf 0 (req'.outPos + 16) := rfl
  have hsplit : req'.outPos + 16 = req'.outPos + (8 + (5 + 3)) := rfl
  have hself : slice (store marked.outBuf (req'.outPos + 8) [0, 0, 0, 0, 0]) (req'.outPos + 8) 5 =
      [0, 0, 0, 0, 0] := slice_store_self marked.outBuf (req'.outPos + 8) [0, 0, 0, 0, 0]
  have hafter : slice (store marked.outBuf (req'.outPos + 8) [0, 0, 0, 0, 0])
      (req'.outPos + 8 + 5) 3 = slice marked.outBuf (req'.outPos + 8 + 5) 3 :=
    slice_store_after le_rfl
  refine ⟨body, hlen, by rw [hbody]; rfl, ?_⟩
  rw [hpending, hsplit, slice_add, slice_add, slice_add, Nat.zero_add, put_outBuf,
    slice_store_before (by omega), slice_store_before (by omega), fcgiMakeHeader_before le_rfl,
    fcgiMakeHeader_header, hself, hafter, ← hbody, endRecord_encode, hreq, closePacket_id]

end Output

theorem Represents.fcgiEnd {id : Nat} {req : Output} {cs : List Chunk} {stream : Stream}
    (h : Represents id req stream cs) :
    ∃ body, ∃ hlen : body.length = 8, body.take 5 = [0, 0, 0, 0, 0] ∧
      req.fcgiEnd.written = encodeChunks id cs ++ (endRecord id body hlen).encode ∧
      req.fcgiEnd.overrun = false := by
  obtain ⟨hclosed, hpos⟩ := h.closePacket
  obtain ⟨body, hlen, hstatus, hpending⟩ := req.pending_end
  have hid : req.id = id := req.closePacket_id.symm.trans hclosed.id_eq
  have hend : req.fcgiEnd = { req.fcgiFlush true with ended := true } := by
    unfold Output.fcgiEnd
    rw [h.running]
    rfl
  refine ⟨body, hlen, hstatus, ?_, ?_⟩
  · have hwritten : req.fcgiEnd.written = req.closePacket.written ++ req.pending true := by
      rw [hend]
      exact congrArg (· ++ req.pending true) Output.fcgiMakeHeader_written
    rw [hwritten, hpending, ← append_assoc, hclosed.bytes, hid]
  · rw [outBufSize] at hpos
    rw [hend]
    refine (Output.put_inside ?_).trans ((Output.fcgiMakeHeader_inside ?_ ?_).trans
      hclosed.inside)
    · rw [outBufSize, endRequestSize]
      exact Nat.add_le_add_right (Nat.add_le_add_right hpos 8) 5 |>.trans (by decide)
    · rw [outBufSize, endRequestSize]
      omega
    · exact fun hne => absurd rfl hne

/-! ## The response -/

/-- A response: what a request calls, and `fcgi_end`. -/
def respond (id : Nat) (outBuf : Nat → UInt8) (ops : List OutputOp) : Output :=
  (ops.foldl OutputOp.apply (Output.init id outBuf)).fcgiEnd

def writtenTo (stream : Stream) (ops : List OutputOp) : Bytes :=
  ops.flatMap fun
    | .write s str => if stream = s then str else []
    | .flush => []

theorem init_represents (id : Nat) (outBuf : Nat → UInt8) :
    Represents id (Output.init id outBuf) .stdout [] :=
  .closed ⟨rfl, rfl, rfl, rfl, rfl, rfl⟩ (Nat.zero_le _)

theorem OutputOp.apply_represents {id : Nat} {req : Output} {cs : List Chunk} {stream : Stream}
    (h : Represents id req stream cs) (op : OutputOp) :
    ∃ cs', (∃ stream', Represents id (op.apply req) stream' cs') ∧
      ∀ s, streamContent s cs' = streamContent s cs ++ writtenTo s [op] := by
  cases op with
  | write s str =>
    obtain ⟨cs', hrep, happends⟩ := fcgiWrite_represents h s str
    refine ⟨cs', hrep, fun s' => ?_⟩
    rw [happends s', writtenTo, flatMap_singleton]
  | flush =>
    obtain ⟨hclosed, hzero⟩ := h.flush
    refine ⟨cs, ⟨stream, .closed hclosed ?_⟩, fun s' => ?_⟩
    · rw [OutputOp.apply, hzero]
      exact Nat.zero_le _
    · rw [writtenTo, flatMap_singleton, append_nil]

theorem foldl_apply_represents {id : Nat} (ops : List OutputOp) {req : Output} {cs : List Chunk}
    {stream : Stream} (h : Represents id req stream cs) :
    ∃ cs', (∃ stream', Represents id (ops.foldl OutputOp.apply req) stream' cs') ∧
      ∀ s, streamContent s cs' = streamContent s cs ++ writtenTo s ops := by
  -- induction on the calls
  induction ops generalizing req cs stream with
  | nil => exact ⟨cs, ⟨stream, h⟩, fun s => (append_nil _).symm⟩
  | cons op ops ih =>
    obtain ⟨mid, ⟨stream', hmid⟩, hop⟩ := op.apply_represents h
    obtain ⟨cs', hrep, hops⟩ := ih hmid
    refine ⟨cs', hrep, fun s => ?_⟩
    rw [hops s, hop s, append_assoc, writtenTo, writtenTo, ← flatMap_append]
    rfl

theorem respond_eq (id : Nat) (outBuf : Nat → UInt8) (ops : List OutputOp) :
    ∃ cs body, ∃ hlen : body.length = 8, body.take 5 = [0, 0, 0, 0, 0] ∧
      (respond id outBuf ops).written =
        encodeChunks id cs ++ (endRecord id body hlen).encode ∧
      (respond id outBuf ops).overrun = false ∧
      ∀ s, streamContent s cs = writtenTo s ops := by
  obtain ⟨cs, ⟨stream, hrep⟩, hops⟩ := foldl_apply_represents ops (init_represents id outBuf)
  obtain ⟨body, hlen, hstatus, hwritten, hinside⟩ := hrep.fcgiEnd
  exact ⟨cs, body, hlen, hstatus, hwritten, hinside, hops⟩

/-! ## The reader -/

def readRecords : Nat → Bytes → Option (List Record)
  | 0, _ => none
  | fuel + 1, input =>
    if input = [] then some []
    else
      match readHeader input with
      | (some hdr, input) =>
        let (content, input) := safeRead input hdr.contentLength
        let (padding, input) := safeRead input hdr.paddingLength.toNat
        if h : fcgiVersion1 ≤ hdr.version ∧ hdr.contentLength = content.length ∧
            hdr.paddingLength.toNat = padding.length then
          (readRecords fuel input).map (⟨hdr, content, padding, h.1, h.2.1, h.2.2⟩ :: ·)
        else none
      | (none, _) => none

/-- The reader with fuel enough: a record has at least eight bytes. -/
def parseRecords (input : Bytes) : Option (List Record) := readRecords (input.length + 1) input

theorem readRecords_encode (rs : List Record) (fuel : Nat) (hfuel : rs.length < fuel) :
    readRecords fuel (rs.flatMap Record.encode) = some rs := by
  -- induction on the records
  induction rs generalizing fuel with
  | nil =>
    obtain ⟨n, rfl⟩ : ∃ n, fuel = n + 1 := ⟨fuel - 1, by omega⟩
    rfl
  | cons r rs ih =>
    obtain ⟨n, rfl⟩ : ∃ n, fuel = n + 1 := ⟨fuel - 1, by omega⟩
    have hne : r.encode ++ rs.flatMap Record.encode ≠ [] := by
      rw [Record.encode, FcgiHeader.bytes]
      exact cons_ne_nil _ _
    have hcontent : safeRead (r.content ++ r.padding ++ rs.flatMap Record.encode)
        r.header.contentLength = (r.content, r.padding ++ rs.flatMap Record.encode) := by
      rw [safeRead_eq, r.contentLength, append_assoc, take_left, drop_left]
    have hpadding : safeRead (r.padding ++ rs.flatMap Record.encode)
        r.header.paddingLength.toNat = (r.padding, rs.flatMap Record.encode) := by
      rw [safeRead_eq, r.paddingLength, take_left, drop_left]
    rw [flatMap_cons, readRecords, if_neg hne, r.readHeader_encode]
    simp only [hcontent, hpadding]
    rw [dif_pos ⟨r.version, r.contentLength, r.paddingLength⟩,
      ih n (by rw [length_cons] at hfuel; omega)]
    rfl

theorem parseRecords_encode (rs : List Record) :
    parseRecords (rs.flatMap Record.encode) = some rs :=
  readRecords_encode rs _ (lt_succ_of_le (Record.length_le_flatMap_encode id rs))

def recordContent (stream : Stream) (rs : List Record) : Bytes :=
  rs.flatMap fun r => if r.header.type = stream.type.code then r.content else []

theorem recordContent_map (id : Nat) (stream : Stream) (cs : List Chunk) :
    recordContent stream (cs.map (Chunk.record id)) = streamContent stream cs := by
  rw [recordContent, flatMap_map, streamContent]
  refine flatMap_congr fun c _ => ?_
  have hcode : (c.record id).header.type = stream.type.code ↔ c.stream = stream := by
    cases hc : c.stream <;> cases stream <;>
      simp [Chunk.record, makeHeader, hc, Stream.type, FcgiRequestType.code]
  simp only [hcode]
  rfl

theorem requestId_le (hdr : FcgiHeader) : hdr.requestId ≤ 0xffff := by
  have h1 := hdr.requestIdB1.toNat_lt
  have h0 := hdr.requestIdB0.toNat_lt
  rw [FcgiHeader.requestId, shiftLeft_eq]
  omega

structure WellFormed (id : Nat) (r : Record) : Prop where
  version : r.header.version = fcgiVersion1
  requestId : r.header.requestId = id
  contentLength : r.header.contentLength = r.content.length
  length_le : r.content.length ≤ 0xffff
  paddingLength : r.header.paddingLength.toNat = r.padding.length
  padding_zero : ∀ b ∈ r.padding, b = 0

theorem Chunk.record_wellFormed {id : Nat} (hid : id ≤ 0xffff) (c : Chunk) :
    WellFormed id (c.record id) where
  version := rfl
  requestId := makeHeader_requestId hid
  contentLength := (c.record id).contentLength
  length_le := c.length_le
  paddingLength := (c.record id).paddingLength
  padding_zero := fun _ hb => (mem_replicate.mp hb).2

theorem endRecord_wellFormed {id : Nat} (hid : id ≤ 0xffff) {body : Bytes}
    (hlen : body.length = 8) : WellFormed id (endRecord id body hlen) where
  version := rfl
  requestId := makeHeader_requestId hid
  contentLength := (endRecord id body hlen).contentLength
  length_le := by
    show body.length ≤ _
    omega
  paddingLength := rfl
  padding_zero := nofun

/-- **The round trip of a response.** Whatever a request writes to its two streams, and however
often it flushes, a reader of what went out finds well-formed records of the two streams, and
behind them one that ends the request. On each stream they carry what was written to it, in order.
-/
theorem output_round_trip (hdr : FcgiHeader) (outBuf : Nat → UInt8) (ops : List OutputOp) :
    ∃ rs e, parseRecords (respond hdr.requestId outBuf ops).written = some (rs ++ [e]) ∧
      (∀ r ∈ rs ++ [e], WellFormed hdr.requestId r) ∧
      (∀ r ∈ rs, ∃ stream : Stream, r.header.type = stream.type.code) ∧
      e.header.type = FcgiRequestType.endRequest.code ∧ e.content.take 5 = [0, 0, 0, 0, 0] ∧
      ∀ stream, recordContent stream rs = writtenTo stream ops := by
  obtain ⟨cs, body, hlen, hstatus, hwritten, -, hops⟩ := respond_eq hdr.requestId outBuf ops
  have hid := requestId_le hdr
  have hencode : (respond hdr.requestId outBuf ops).written =
      (cs.map (Chunk.record hdr.requestId) ++ [endRecord hdr.requestId body hlen]).flatMap
        Record.encode := by
    rw [hwritten, flatMap_append, flatMap_singleton, flatMap_map, encodeChunks]
  refine ⟨cs.map (Chunk.record hdr.requestId), endRecord hdr.requestId body hlen, ?_, ?_, ?_, rfl,
    hstatus, fun stream => ?_⟩
  · rw [hencode, parseRecords_encode]
  · intro r hr
    rcases mem_append.mp hr with hr | hr
    · obtain ⟨c, -, rfl⟩ := List.mem_map.mp hr
      exact c.record_wellFormed hid
    · obtain rfl := mem_singleton.mp hr
      exact endRecord_wellFormed hid hlen
  · intro r hr
    obtain ⟨c, -, rfl⟩ := List.mem_map.mp hr
    exact ⟨c.stream, rfl⟩
  · rw [recordContent_map, hops stream]

end Fcgi

end Phpce
