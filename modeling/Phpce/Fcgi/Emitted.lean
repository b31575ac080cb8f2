import Phpce.Fcgi.Socket
import Phpce.Lib.Run

/-!
# The records a request emits

What the records say that `fcgi_write`, `fcgi_flush` and `fcgi_end` of `main/fastcgi.c` hand to the
descriptor, whatever `write(2)` makes of them.

* **`writeString_emits`** — what one `fcgi_write` emits: only a packet that is opened where its
  header ends the buffer has no content.
* **`noEmptyStream_iff`** — no record ends a stream early exactly where no `fcgi_write` closes a
  packet of another type just before the end of the buffer.
* **`endFinal_iff`** — `END_REQUEST` is final exactly where nothing reaches the descriptor after it.
-/

namespace Phpce

namespace Fcgi

open Bytes Buffer List

/-! ## Reading headers -/

/-- The headers of the records in a buffer; the content of the last record may be missing. -/
def readHeaders : Nat → Bytes → List FcgiHeader
  | 0, _ => []
  | fuel + 1, input =>
    match readHeader input with
    | (some hdr, input) =>
      hdr :: readHeaders fuel (input.drop (hdr.contentLength + hdr.paddingLength.toNat))
    | (none, _) => []

def Block.headers : Block → List FcgiHeader
  | .records data => readHeaders data.length data
  | .content _ => []

/-- The headers of the records that have been handed to an open descriptor. -/
def Response.emitted (req : Response) : List FcgiHeader := req.handed.flatMap Block.headers

theorem readHeaders_encode (rs : List Record) (fuel : Nat) (tail : Bytes) :
    readHeaders (rs.length + fuel) (rs.flatMap Record.encode ++ tail) =
      rs.map Record.header ++ readHeaders fuel tail := by
  -- induction on the records
  induction rs with
  | nil => rw [length_nil, Nat.zero_add]; rfl
  | cons r rs ih =>
    have hbody : (r.content ++ r.padding).length =
        r.header.contentLength + r.header.paddingLength.toNat := by
      rw [length_append, r.contentLength, r.paddingLength]
    rw [length_cons, Nat.add_right_comm, readHeaders, flatMap_cons, append_assoc,
      r.readHeader_encode]
    simp only
    rw [← hbody, drop_left, ih]
    rfl

theorem readHeaders_nil (fuel : Nat) : readHeaders fuel [] = [] := by
  cases fuel <;> rfl

theorem headers_records (rs : List Record) :
    (Block.records (rs.flatMap Record.encode)).headers = rs.map Record.header := by
  have hle : rs.length ≤ (rs.flatMap Record.encode).length :=
    Record.length_le_flatMap_encode id rs
  obtain ⟨fuel, hfuel⟩ := Nat.exists_eq_add_of_le hle
  have hread := readHeaders_encode rs fuel []
  rw [append_nil, readHeaders_nil, append_nil, ← hfuel] at hread
  exact hread

theorem headers_records_header (rs : List Record) {hdr : FcgiHeader}
    (hversion : fcgiVersion1 ≤ hdr.version) :
    (Block.records (rs.flatMap Record.encode ++ hdr.bytes)).headers =
      rs.map Record.header ++ [hdr] := by
  have hle : rs.length ≤ (rs.flatMap Record.encode).length :=
    Record.length_le_flatMap_encode id rs
  obtain ⟨fuel, hfuel⟩ := Nat.exists_eq_add_of_le hle
  have hlength : (rs.flatMap Record.encode ++ hdr.bytes).length = rs.length + (fuel + 7 + 1) := by
    rw [length_append, hfuel]
    rfl
  have hlast : readHeader (hdr.bytes ++ []) = (some hdr, []) := readHeader_bytes hversion []
  rw [append_nil] at hlast
  rw [Block.headers, hlength, readHeaders_encode, readHeaders, hlast]
  simp only
  rw [drop_nil, readHeaders_nil]

/-! ## The buffer -/

/-- A header of a type that `T` allows, with content behind it. -/
def Full (T : UInt8 → Prop) (hdr : FcgiHeader) : Prop := T hdr.type ∧ 0 < hdr.contentLength

/-- No packet is open: the buffer holds the records `rs`. -/
structure Shut (T : UInt8 → Prop) (out : Output) (rs : List Record) : Prop where
  hdr_eq : out.outHdr = none
  records : slice out.outBuf 0 out.outPos = rs.flatMap Record.encode
  full : ∀ r ∈ rs, Full T r.header
  aligned : out.outPos % 8 = 0

/-- The packet at `hdr` is open, one of type `code`; the records `rs` stand before it. -/
structure Packet (T : UInt8 → Prop) (out : Output) (hdr : Nat) (code : UInt8)
    (rs : List Record) : Prop where
  hdr_eq : out.outHdr = some hdr
  code_eq : out.outBuf (hdr + 1) = code
  allowed : T code
  records : slice out.outBuf 0 hdr = rs.flatMap Record.encode
  full : ∀ r ∈ rs, Full T r.header
  aligned : hdr % 8 = 0
  hdr_le : hdr + 8 ≤ out.outPos

def packetRecord (id : Nat) (code : UInt8) (content : Bytes) (h : content.length ≤ 0xffff) :
    Record where
  header := makeHeader code id content.length (padding content.length)
  content := content
  padding := List.replicate (padding content.length) 0
  version := UInt8.le_refl _
  contentLength := makeHeader_contentLength h
  paddingLength := by
    have hlt := padding_lt content.length
    rw [List.length_replicate, makeHeader, UInt8.toNat_ofNat']
    omega

section Buffer

variable {T : UInt8 → Prop} {out : Output} {hdr : Nat} {code : UInt8} {rs : List Record}
  {type : FcgiRequestType}

theorem Shut.closePacket_eq (h : Shut T out rs) : out.closePacket = out := by
  unfold Output.closePacket
  rw [h.hdr_eq]

theorem Shut.openPacket (h : Shut T out rs) (htype : T type.code) :
    Packet T (out.openPacket type) out.outPos type.code rs where
  hdr_eq := rfl
  code_eq := by
    have hstore : store out.outBuf (out.outPos + 1) [type.code] (out.outPos + 1 + 0) = _ :=
      store_at Nat.zero_lt_one
    exact hstore
  allowed := htype
  records := by
    rw [Output.openPacket_outBuf, slice_store_before (by omega), h.records]
  full := h.full
  aligned := h.aligned
  hdr_le := Nat.le_refl _

theorem Packet.append (h : Packet T out hdr code rs) (data : Bytes) :
    Packet T (out.append data) hdr code rs where
  hdr_eq := h.hdr_eq
  code_eq := by
    have hle := h.hdr_le
    rw [Output.append_outBuf, store_before (by omega), h.code_eq]
  allowed := h.allowed
  records := by
    have hle := h.hdr_le
    rw [Output.append_outBuf, slice_store_before (by omega), h.records]
  full := h.full
  aligned := h.aligned
  hdr_le := h.hdr_le.trans (Nat.le_add_right _ _)

theorem Packet.closePacket (h : Packet T out hdr code rs) {len : Nat}
    (hpos : out.outPos = hdr + 8 + len) (hle : len ≤ 0xffff) :
    ∃ r : Record, r.header.type = code ∧ r.header.contentLength = len ∧
      out.closePacket.outHdr = none ∧ out.closePacket.outPos = out.outPos + padding len ∧
      slice out.closePacket.outBuf 0 out.closePacket.outPos =
        (rs ++ [r]).flatMap Record.encode := by
  have hlen : out.outPos - (hdr + 8) = len := by omega
  have hclose := Output.closePacket_some h.hdr_eq
  have hslice := Output.closePacket_slice h.hdr_eq hpos
  have hcontent : (slice out.outBuf (hdr + 8) len).length = len := length_slice
  rw [hlen] at hclose
  refine ⟨packetRecord out.id code (slice out.outBuf (hdr + 8) len) (by omega), rfl, ?_, ?_, ?_, ?_⟩
  · rw [(packetRecord _ _ _ _).contentLength]
    exact hcontent
  · rw [hclose]
  · rw [hclose]
  · rw [hslice, h.code_eq, h.records, flatMap_append, flatMap_singleton, Record.encode]
    simp only [packetRecord, hcontent]

theorem Packet.shut (h : Packet T out hdr code rs) {len : Nat}
    (hpos : out.outPos = hdr + 8 + len) (hle : len ≤ 0xffff) (hlen : 0 < len) :
    ∃ rs', Shut T out.closePacket rs' := by
  obtain ⟨r, hcode, hlength, hnone, hout, hslice⟩ := h.closePacket hpos hle
  refine ⟨rs ++ [r], hnone, hslice, ?_, ?_⟩
  · intro r' hr'
    rcases mem_append.mp hr' with hr' | hr'
    · exact h.full r' hr'
    · obtain rfl := mem_singleton.mp hr'
      exact ⟨hcode ▸ h.allowed, hlength ▸ hlen⟩
  · have hmod := padding_aligned len
    have haligned := h.aligned
    rw [hout]
    omega

/-- Between two calls: nothing is buffered, or a packet with some content is open. -/
inductive Idle (T : UInt8 → Prop) (out : Output) : Prop where
  | closed (hdr_eq : out.outHdr = none) (pos_eq : out.outPos = 0)
  | opened {hdr : Nat} {code : UInt8} {rs : List Record} (h : Packet T out hdr code rs)
      (filled : hdr + 8 < out.outPos) (lt : out.outPos < outBufSize)

/-- Once a packet of another type is closed. -/
inductive Ready (T : UInt8 → Prop) (code : UInt8) (out : Output) : Prop where
  | shut {rs : List Record} (h : Shut T out rs) (le : out.outPos ≤ outBufSize)
  | opened {hdr : Nat} {rs : List Record} (h : Packet T out hdr code rs)
      (filled : hdr + 8 < out.outPos) (lt : out.outPos < outBufSize)

theorem Idle.shut (hnone : out.outHdr = none) (hzero : out.outPos = 0) : Shut T out [] :=
  ⟨hnone, by rw [hzero]; rfl, fun _ hr => absurd hr not_mem_nil, by rw [hzero]⟩

theorem Packet.closed_le (h : Packet T out hdr code rs) (filled : hdr + 8 < out.outPos)
    (lt : out.outPos < outBufSize) :
    ∃ rs', Shut T out.closePacket rs' ∧ out.closePacket.outPos = (out.outPos + 7) / 8 * 8 := by
  have haligned := h.aligned
  rw [outBufSize] at lt
  have hpos : out.outPos = hdr + 8 + (out.outPos - (hdr + 8)) := by omega
  obtain ⟨_, _, _, _, hout, _⟩ := h.closePacket hpos (by omega)
  obtain ⟨rs', hshut⟩ := h.shut hpos (by omega) (by omega)
  refine ⟨rs', hshut, ?_⟩
  rw [hout, padding]
  omega

theorem Idle.switchType (h : Idle T out) (type : FcgiRequestType) :
    Ready T type.code (out.switchType type) := by
  cases h with
  | closed hnone hzero =>
    unfold Output.switchType
    rw [hnone]
    exact .shut (Idle.shut hnone hzero) (by rw [hzero]; exact Nat.zero_le _)
  | @opened hdr code rs h filled lt =>
    unfold Output.switchType
    rw [h.hdr_eq]
    dsimp only
    by_cases hsame : out.outBuf (hdr + 1) ≠ type.code
    · obtain ⟨rs', hshut, hout⟩ := h.closed_le filled lt
      rw [if_pos hsame]
      rw [outBufSize] at lt
      exact .shut hshut (by rw [hout, outBufSize]; omega)
    · have hcode : code = type.code := by rw [← h.code_eq, not_not.mp hsame]
      rw [if_neg hsame]
      exact .opened (hcode ▸ h) filled lt

/-- An open packet of another type stands so near the end of the buffer that, once it is closed, a
header fills the rest; and the string is too short to bypass the buffer. -/
def Starves (out : Output) (type : FcgiRequestType) (len : Nat) : Prop :=
  (∃ hdr, out.outHdr = some hdr ∧ out.outBuf (hdr + 1) ≠ type.code) ∧
    outBufSize - 16 < out.outPos ∧ len < outBufSize - 8

theorem Idle.starves_iff (h : Idle T out) (type : FcgiRequestType) (len : Nat) :
    Starves out type len ↔ (out.switchType type).outHdr = none ∧
      (out.switchType type).limit = 0 ∧ len < outBufSize - 8 := by
  rw [Starves, Output.switchType, Output.limit, outBufSize]
  cases h with
  | closed hnone hzero =>
    rw [hnone]
    constructor
    · rintro ⟨⟨hdr, hhdr, -⟩, -⟩
      cases hhdr
    · rintro ⟨-, hlimit, -⟩
      simp only [hnone, hzero, if_true] at hlimit
      omega
  | @opened hdr code rs h filled lt =>
    rw [h.hdr_eq]
    simp only
    by_cases hother : out.outBuf (hdr + 1) ≠ type.code
    · obtain ⟨rs', hshut, hout⟩ := h.closed_le filled lt
      rw [outBufSize] at lt
      rw [if_pos hother, hshut.hdr_eq, if_pos rfl, hout]
      constructor
      · rintro ⟨-, hpos, hlen⟩
        exact ⟨rfl, by omega, hlen⟩
      · rintro ⟨-, hlimit, hlen⟩
        exact ⟨⟨hdr, rfl, hother⟩, by omega, hlen⟩
    · rw [if_neg hother, h.hdr_eq]
      constructor
      · rintro ⟨⟨hdr', hhdr, hne⟩, -⟩
        obtain rfl := Option.some.inj hhdr
        exact absurd hne hother
      · rintro ⟨hnone, -⟩
        cases hnone

end Buffer

/-! ## What a call emits -/

/-- From `req` to `r` the records with the headers `hdrs` are emitted. -/
structure Emits (req : Response) (hdrs : List FcgiHeader) (r : Response) : Prop where
  emitted : r.emitted = req.emitted ++ hdrs
  fdOpen : r.fdOpen = req.fdOpen

section Emits

variable {σ : Schedule} {T : UInt8 → Prop} {req req' : Response} {r : Response}
  {hdrs hdrs' : List FcgiHeader} {rs : List Record} {type : FcgiRequestType}

theorem Emits.refl (req : Response) : Emits req [] req :=
  ⟨(append_nil _).symm, rfl⟩

theorem Emits.trans (h : Emits req hdrs req') (h' : Emits req' hdrs' r) :
    Emits req (hdrs ++ hdrs') r :=
  ⟨by rw [h'.emitted, h.emitted, append_assoc], h'.fdOpen.trans h.fdOpen⟩

theorem Emits.congr (h : Emits req hdrs req') (hhanded : r.handed = req'.handed)
    (hfd : r.fdOpen = req'.fdOpen) : Emits req hdrs r :=
  ⟨by rw [← h.emitted, Response.emitted, hhanded, Response.emitted], hfd.trans h.fdOpen⟩

theorem andThen_eq (r : Bool × Response) (next : Response → Bool × Response) :
    r.1 = true ∧ andThen r next = next r.2 ∨ r.1 = false ∧ andThen r next = r := by
  unfold andThen
  cases hr : r.1 with
  | true => exact .inl ⟨rfl, if_pos rfl⟩
  | false => exact .inr ⟨rfl, if_neg Bool.false_ne_true⟩

theorem andThen_true (req : Response) (next : Response → Bool × Response) :
    andThen (true, req) next = next req := if_pos rfl

theorem Emits.after {out : Output} (h : Emits { req with out := out } hdrs r) : Emits req hdrs r :=
  ⟨h.emitted, h.fdOpen⟩

theorem safeWrite_emits (σ : Schedule) (req : Response) (hopen : req.fdOpen = true)
    (block : Block) : Emits req block.headers (req.safeWrite σ block).2 := by
  unfold Response.safeWrite
  rw [if_pos hopen]
  refine ⟨?_, rfl⟩
  rw [Response.emitted, Response.emitted, flatMap_append, flatMap_singleton]

theorem fcgiFlush_emits (σ : Schedule) (req : Response) (hopen : req.fdOpen = true) (fin : Bool) :
    Emits req (Block.records (req.out.pending fin)).headers (req.fcgiFlush σ fin).2 :=
  (safeWrite_emits σ { req with out := req.out.sealed fin } hopen
    (.records (req.out.pending fin))).after.congr rfl rfl

theorem fcgiFlush_closed (σ : Schedule) (req : Response) (hclosed : req.fdOpen = false)
    (fin : Bool) :
    (req.fcgiFlush σ fin).1 = false ∧ Emits req [] (req.fcgiFlush σ fin).2 := by
  have hwrite : ({ req with out := req.out.sealed fin }.safeWrite σ
      (.records (req.out.pending fin))) =
      (false, { req with out := (req.out.sealed fin).safeWrite (req.out.pending fin) }) := by
    unfold Response.safeWrite
    rw [if_neg (by rw [hclosed]; decide)]
    rfl
  have hok := congrArg Prod.fst hwrite
  have hhanded := congrArg (fun r : Bool × Response => r.2.handed) hwrite
  have hfd := congrArg (fun r : Bool × Response => r.2.fdOpen) hwrite
  exact ⟨hok, (Emits.refl req).congr hhanded hfd⟩

theorem fcgiFlush_closes (σ : Schedule) (req : Response) (fin : Bool) :
    (req.fcgiFlush σ fin).2.out.outHdr = none ∧ (req.fcgiFlush σ fin).2.out.outPos = 0 := by
  have hclose : req.out.closePacket.outHdr = none := by
    cases hhdr : req.out.outHdr with
    | none =>
      unfold Output.closePacket
      rw [hhdr]
      exact hhdr
    | some hdr => rw [Output.closePacket_some hhdr]
  rw [fcgiFlush_out]
  refine ⟨?_, by cases fin <;> rfl⟩
  rw [← hclose]
  cases fin with
  | false => rfl
  | true =>
    rw [Output.fcgiFlush]
    simp only [if_true, Output.safeWrite_outHdr, Output.put_outHdr]
    rw [Output.fcgiMakeHeader_eq]

theorem fcgiFlush_idle (T : UInt8 → Prop) (σ : Schedule) (req : Response) (fin : Bool) :
    Idle T (req.fcgiFlush σ fin).2.out :=
  .closed (fcgiFlush_closes σ req fin).1 (fcgiFlush_closes σ req fin).2

theorem writeDirect_emits (σ : Schedule) (h : Shut T req.out rs) (hopen : req.fdOpen = true)
    (htype : T type.code) (data : Bytes) (hpos : 0 < data.length) (hle : data.length ≤ 0xffff) :
    ∃ hdrs, Emits req hdrs (req.writeDirect σ type data).2 ∧ hdrs ≠ [] ∧ (∀ h ∈ hdrs, Full T h) ∧
      (req.writeDirect σ type data).2.out.outHdr = none ∧
      (req.writeDirect σ type data).2.out.outPos = 0 := by
  set hdr := makeHeader type.code req.out.id data.length (padding data.length)
  obtain ⟨marked, hmarked⟩ : ∃ marked : Output, marked =
      { (req.out.openPacket type).fcgiMakeHeader req.out.outPos type.code data.length with
        outHdr := none } := ⟨_, rfl⟩
  have hpending : marked.pending false = rs.flatMap Record.encode ++ hdr.bytes := by
    have hpos' : marked.outPos = req.out.outPos + 8 := by
      rw [hmarked, Output.fcgiMakeHeader_eq]
      rfl
    have hslice : marked.pending false = slice marked.outBuf 0 marked.outPos := by
      rw [hmarked]
      rfl
    rw [hslice, hpos', slice_add, Nat.zero_add, hmarked, Output.fcgiMakeHeader_before le_rfl,
      Output.fcgiMakeHeader_header, Output.openPacket_outBuf, slice_store_before (by omega),
      h.records]
    rfl
  have hflush := (fcgiFlush_emits σ { req with out := marked } hopen false).after
  rw [hpending, headers_records_header rs (UInt8.le_refl _)] at hflush
  obtain ⟨hnone, hzero⟩ := fcgiFlush_closes σ { req with out := marked } false
  have hfull : ∀ h ∈ rs.map Record.header ++ [hdr], Full T h := by
    intro h' hh
    rcases mem_append.mp hh with hh | hh
    · obtain ⟨r', hr', rfl⟩ := List.mem_map.mp hh
      exact h.full r' hr'
    · obtain rfl := mem_singleton.mp hh
      exact ⟨htype, by rw [makeHeader_contentLength hle]; exact hpos⟩
  have hdirect : req.writeDirect σ type data =
      andThen ({ req with out := marked }.fcgiFlush σ false) fun req =>
        ((req.safeWrite σ (.content data)).1, { (req.safeWrite σ (.content data)).2 with
          keep := (req.safeWrite σ (.content data)).2.keep &&
            (req.safeWrite σ (.content data)).1 }) := by
    rw [hmarked]
    rfl
  refine ⟨rs.map Record.header ++ [hdr], ?_⟩
  rw [hdirect]
  rcases andThen_eq ({ req with out := marked }.fcgiFlush σ false) _ with ⟨-, heq⟩ | ⟨-, heq⟩
  · rw [heq]
    have hcontent := safeWrite_emits σ _ (hflush.fdOpen.trans hopen) (.content data)
    have hboth := hflush.trans hcontent
    rw [show (Block.content data).headers = [] from rfl, append_nil] at hboth
    have hout := safeWrite_out σ ({ req with out := marked }.fcgiFlush σ false).2 (.content data)
    exact ⟨hboth.congr rfl rfl, by simp, hfull, (congrArg Output.outHdr hout).trans hnone,
      (congrArg Output.outPos hout).trans hzero⟩
  · rw [heq]
    exact ⟨hflush, by simp, hfull, hnone, hzero⟩

theorem writeLarge_emits (σ : Schedule) (req : Response) (hopen : req.fdOpen = true)
    (htype : T type.code) (fuel : Nat) {str : Bytes} (hlong : 8 ≤ str.length)
    (hfuel : str.length ≤ fuel) (h : Shut T req.out rs) :
    ∃ hdrs, Emits req hdrs (req.writeLarge σ type fuel str).1.2 ∧ (∀ h ∈ hdrs, Full T h) ∧
      (∃ rs', Shut T (req.writeLarge σ type fuel str).1.2.out rs') ∧
      ((req.writeLarge σ type fuel str).1.1 = true →
        8 ≤ (req.writeLarge σ type fuel str).2.length ∧
          (req.writeLarge σ type fuel str).2.length ≤ 0xffff) ∧
      ((req.writeLarge σ type fuel str).1.1 = false →
        hdrs ≠ [] ∧ Idle T (req.writeLarge σ type fuel str).1.2.out) := by
  -- induction on the fuel, of which every round uses one and at least a byte of the string
  induction fuel generalizing req str rs with
  | zero => exact absurd hfuel (by omega)
  | succ fuel ih =>
    rw [Response.writeLarge]
    by_cases hlarge : 0xffff < str.length
    · rw [if_pos hlarge]
      have htake : (str.take 0xfff8).length = 0xfff8 := length_take_of_le (by omega)
      have hdrop : (str.drop 0xfff8).length = str.length - 0xfff8 := length_drop
      obtain ⟨hdrs, hemits, hne, hfull, hnone, hzero⟩ := writeDirect_emits σ h hopen htype
        (str.take 0xfff8) (by omega) (by omega)
      dsimp only
      cases hok : (req.writeDirect σ type (str.take 0xfff8)).1 with
      | true =>
        rw [if_pos rfl]
        obtain ⟨hdrs', hemits', hfull', hshut, hdone, hfail⟩ := ih _ (hemits.fdOpen.trans hopen)
          (show 8 ≤ (str.drop 0xfff8).length by omega) (by omega) (Idle.shut hnone hzero)
        refine ⟨hdrs ++ hdrs', hemits.trans hemits', ?_, hshut, hdone, fun h => ⟨?_, (hfail h).2⟩⟩
        · exact fun h' hh => (mem_append.mp hh).elim (hfull h') (hfull' h')
        · exact fun hnil => hne (append_eq_nil_iff.mp hnil).1
      | false =>
        rw [if_neg Bool.false_ne_true]
        refine ⟨hdrs, hemits, hfull, ⟨[], Idle.shut hnone hzero⟩, fun h => ?_, fun _ => ?_⟩
        · exact Bool.noConfusion (hok.symm.trans h)
        · exact ⟨hne, .closed hnone hzero⟩
    · rw [if_neg hlarge]
      exact ⟨[], .refl req, fun _ hh => absurd hh not_mem_nil, ⟨rs, h⟩,
        fun _ => ⟨hlong, Nat.not_lt.mp hlarge⟩, fun h => Bool.noConfusion h⟩

/-- What a `fcgi_write` of `len` bytes emits. -/
structure WriteEmits (T : UInt8 → Prop) (req : Response) (type : FcgiRequestType) (len : Nat)
    (hdrs : List FcgiHeader) (r : Response) : Prop extends Emits req hdrs r where
  idle : Idle T r.out
  allowed : ∀ h ∈ hdrs, T h.type
  empty_type : ∀ h ∈ hdrs, h.contentLength = 0 → h.type = type.code
  empty_iff : (∃ h ∈ hdrs, h.contentLength = 0) ↔ Starves req.out type len
  nil_iff : hdrs = [] ↔ len < (req.out.switchType type).limit

theorem WriteEmits.of_full {len : Nat} (hemits : Emits req hdrs r) (hidle : Idle T r.out)
    (hfull : ∀ h ∈ hdrs, Full T h) (hne : hdrs ≠ []) (hlen : outBufSize - 8 ≤ len)
    (hlimit : ¬len < (req.out.switchType type).limit) : WriteEmits T req type len hdrs r where
  toEmits := hemits
  idle := hidle
  allowed := fun h hh => (hfull h hh).1
  empty_type := fun h hh hzero => absurd hzero (Nat.ne_of_gt (hfull h hh).2)
  empty_iff := by
    constructor
    · rintro ⟨h, hh, hzero⟩
      exact absurd hzero (Nat.ne_of_gt (hfull h hh).2)
    · intro hstarves
      exact absurd hstarves.2.2 (Nat.not_lt.mpr hlen)
  nil_iff := ⟨fun h => absurd h hne, fun h => absurd h hlimit⟩

theorem WriteEmits.of_last {len : Nat} {last : Record}
    (hemits : Emits req (rs.map Record.header ++ [last.header]) r) (hidle : Idle T r.out)
    (hfull : ∀ r ∈ rs, Full T r.header) (hcode : last.header.type = type.code)
    (htype : T type.code) (hempty : last.header.contentLength = 0 ↔ Starves req.out type len)
    (hlimit : ¬len < (req.out.switchType type).limit) :
    WriteEmits T req type len (rs.map Record.header ++ [last.header]) r := by
  have hmem : ∀ h ∈ rs.map Record.header ++ [last.header], Full T h ∨ h = last.header := by
    intro h hh
    rcases mem_append.mp hh with hh | hh
    · obtain ⟨r', hr', rfl⟩ := List.mem_map.mp hh
      exact .inl (hfull r' hr')
    · exact .inr (mem_singleton.mp hh)
  refine ⟨hemits, hidle, ?_, ?_, ?_, ?_⟩
  · intro h hh
    rcases hmem h hh with h | rfl
    · exact h.1
    · rwa [hcode]
  · intro h hh hzero
    rcases hmem h hh with h | rfl
    · exact absurd hzero (Nat.ne_of_gt h.2)
    · exact hcode
  · rw [← hempty]
    constructor
    · rintro ⟨h, hh, hzero⟩
      rcases hmem h hh with h | rfl
      · exact absurd hzero (Nat.ne_of_gt h.2)
      · exact hzero
    · exact fun hzero => ⟨last.header, mem_append_right _ mem_cons_self, hzero⟩
  · exact ⟨fun h => absurd h (by simp), fun h => absurd h hlimit⟩

theorem Ready.openIfClosed {out : Output} (h : Ready T type.code out) (htype : T type.code) :
    ∃ hdr rs, ∃ len limit : Nat, Packet T (out.openIfClosed type) hdr type.code rs ∧
      (out.openIfClosed type).outPos = hdr + 8 + len ∧ out.limit = limit ∧
      (0 < limit → hdr + 8 + len + limit = outBufSize) ∧ len + limit ≤ outBufSize - 8 ∧
      (len + limit = 0 ↔ out.outHdr = none ∧ out.limit = 0) := by
  cases h with
  | @shut rs h le =>
    have hopen : out.openIfClosed type = out.openPacket type := if_pos h.hdr_eq
    have hlimit : out.limit = (outBufSize - out.outPos - 8 : Nat) := by
      rw [Output.limit, if_pos h.hdr_eq, outBufSize]
      omega
    rw [hopen, Output.openPacket_outPos]
    rw [outBufSize] at le
    refine ⟨out.outPos, rs, 0, _, h.openPacket htype, rfl, hlimit, ?_, ?_, ?_⟩
    · rw [outBufSize]
      omega
    · rw [outBufSize]
      omega
    · rw [h.hdr_eq, hlimit]
      exact ⟨fun hzero => ⟨rfl, by omega⟩, fun hzero => by omega⟩
  | @opened hdr rs h filled lt =>
    have hopen : out.openIfClosed type = out := by
      unfold Output.openIfClosed
      rw [h.hdr_eq, if_neg (by simp)]
    have hlimit : out.limit = (outBufSize - out.outPos : Nat) := by
      rw [Output.limit, h.hdr_eq, if_neg (by simp), outBufSize]
      rw [outBufSize] at lt
      omega
    rw [hopen]
    rw [outBufSize] at lt
    refine ⟨hdr, rs, out.outPos - (hdr + 8), _, h, by omega, hlimit, ?_, ?_, ?_⟩
    · rw [outBufSize]
      omega
    · rw [outBufSize]
      omega
    · rw [h.hdr_eq]
      exact ⟨fun hzero => by omega, fun hnone => by cases hnone.1⟩

theorem writeSmall_idle {out : Output} (h : Ready T type.code out) (htype : T type.code)
    {str : Bytes} (hne : 0 < str.length) (hsmall : str.length < out.limit) :
    Idle T ((out.openIfClosed type).append str) := by
  obtain ⟨hdr, rs, len, limit, hpacket, hpos, hlimit, hroom, -, -⟩ := h.openIfClosed htype
  rw [hlimit] at hsmall
  have hfits : str.length < limit := Int.ofNat_lt.mp hsmall
  have hroom' := hroom (by omega)
  refine .opened (hpacket.append str) ?_ ?_
  · rw [Output.append_outPos, hpos]
    omega
  · rw [Output.append_outPos, hpos, ← hroom']
    omega

theorem writeMedium_emits (hopen : req.fdOpen = true)
    (h : Ready T type.code (req.out.switchType type)) (hidle : Idle T req.out)
    (htype : T type.code) {str : Bytes} (hlarge : ¬str.length < (req.out.switchType type).limit)
    (hmedium : str.length - (req.out.switchType type).limit < outBufSize - 8) {filled : Output}
    (hfilled : filled = if 0 < (req.out.switchType type).limit then
      ((req.out.switchType type).openIfClosed type).append
        (str.take (req.out.switchType type).limit.toNat)
      else (req.out.switchType type).openIfClosed type)
    {next : Response → Bool × Response}
    (hnext : ∀ r, next r = (true, { r with
      out := if (req.out.switchType type).limit < str.length then
          (r.out.openPacket type).append (str.drop (req.out.switchType type).limit.toNat)
        else r.out })) :
    ∃ hdrs, WriteEmits T req type str.length hdrs
      (andThen ({ req with out := filled }.fcgiFlush σ false) next).2 := by
  have hstarves := hidle.starves_iff type str.length
  obtain ⟨hdr, rs, len, limit, hpacket, hpos, hlimit, hroom, hle, hzero⟩ := h.openIfClosed htype
  rw [hlimit] at hlarge hmedium hfilled hnext hstarves hzero
  have hlarge' : limit ≤ str.length := Nat.not_lt.mp fun h => hlarge (Int.ofNat_lt.mpr h)
  rw [outBufSize] at hle hmedium
  have htake : (str.take limit).length = limit := length_take_of_le hlarge'
  have hpacket' : Packet T filled hdr type.code rs ∧ filled.outPos = hdr + 8 + (len + limit) := by
    rw [hfilled, Int.toNat_natCast]
    by_cases hpositive : 0 < (limit : Int)
    · rw [if_pos hpositive, Output.append_outPos, hpos, htake]
      exact ⟨hpacket.append _, by omega⟩
    · rw [if_neg hpositive, hpos]
      exact ⟨hpacket, by omega⟩
  obtain ⟨hpacket', hpos'⟩ := hpacket'
  obtain ⟨last, hcode, hlength, -, -, hslice⟩ := hpacket'.closePacket hpos' (by omega)
  have hpending : filled.pending false = (rs ++ [last]).flatMap Record.encode := hslice
  have hflush := (fcgiFlush_emits σ { req with out := filled } hopen false).after
  rw [hpending, headers_records, map_append, map_singleton] at hflush
  obtain ⟨hnone, hzeroPos⟩ := fcgiFlush_closes σ { req with out := filled } false
  have hempty : last.header.contentLength = 0 ↔ Starves req.out type str.length := by
    rw [hlength, hzero, hstarves]
    refine ⟨fun h => ⟨h.1, h.2, ?_⟩, fun h => ⟨h.1, h.2.1⟩⟩
    rw [outBufSize]
    omega
  rw [← hlimit] at hlarge
  refine ⟨rs.map Record.header ++ [last.header], ?_⟩
  rcases andThen_eq ({ req with out := filled }.fcgiFlush σ false) next with ⟨-, heq⟩ | ⟨-, heq⟩
  · rw [heq, hnext, Int.toNat_natCast]
    refine .of_last (hflush.congr rfl rfl) ?_ hpacket'.full hcode htype hempty hlarge
    by_cases hrest : (limit : Int) < str.length
    · have hdrop : (str.drop limit).length = str.length - limit := length_drop
      have hopened := ((Idle.shut hnone hzeroPos).openPacket htype).append (str.drop limit)
      simp only [if_pos hrest]
      refine .opened hopened ?_ ?_
      · rw [Output.append_outPos, Output.openPacket_outPos]
        omega
      · rw [Output.append_outPos, Output.openPacket_outPos, hzeroPos, hdrop, outBufSize]
        omega
    · simp only [if_neg hrest]
      exact .closed hnone hzeroPos
  · rw [heq]
    exact .of_last hflush (.closed hnone hzeroPos) hpacket'.full hcode htype hempty hlarge

theorem Ready.closePacket {out : Output} (h : Ready T type.code out) :
    ∃ rs, Shut T out.closePacket rs := by
  cases h with
  | @shut rs h le => exact ⟨rs, h.closePacket_eq.symm ▸ h⟩
  | opened h filled lt =>
    obtain ⟨rs', hshut, -⟩ := h.closed_le filled lt
    exact ⟨rs', hshut⟩

theorem writeHuge_emits (hopen : req.fdOpen = true)
    (h : Ready T type.code (req.out.switchType type)) (htype : T type.code) {str : Bytes}
    (hlarge : ¬str.length < (req.out.switchType type).limit) (hlen : outBufSize - 8 ≤ str.length) :
    ∃ hdrs, WriteEmits T req type str.length hdrs
      (let r := { req with out := (req.out.switchType type).closePacket }.writeLarge σ type
        str.length str
      let str := r.2
      let pad := padding str.length
      let rest := if pad ≠ 0 then 8 - pad else 0
      andThen r.1 fun req =>
        andThen (req.writeDirect σ type (str.take (str.length - rest))) fun req =>
          (true, { req with
            out := if pad ≠ 0 then (req.out.openPacket type).append (str.drop (str.length - rest))
              else req.out })).2 := by
  obtain ⟨rs, hshut⟩ := h.closePacket
  rw [outBufSize] at hlen
  obtain ⟨hdrs, hemits, hfull, ⟨rs', hshut'⟩, hdone, hfail⟩ := writeLarge_emits σ
    { req with out := (req.out.switchType type).closePacket } hopen htype str.length
    (show 8 ≤ str.length by omega) (Nat.le_refl _) hshut
  generalize { req with out := (req.out.switchType type).closePacket }.writeLarge σ type
    str.length str = result at *
  obtain ⟨⟨ok, mid⟩, str'⟩ := result
  have hlen' : outBufSize - 8 ≤ str.length := by rwa [outBufSize]
  cases ok with
  | false =>
    obtain ⟨hne, hidle⟩ := hfail rfl
    exact ⟨hdrs, .of_full hemits.after hidle hfull hne hlen' hlarge⟩
  | true =>
    obtain ⟨hmin, hmax⟩ := hdone rfl
    dsimp only at *
    set rest := if padding str'.length ≠ 0 then 8 - padding str'.length else 0 with hrestdef
    have hrest : rest = str'.length % 8 := by
      rw [hrestdef, padding]
      split <;> omega
    have htake : (str'.take (str'.length - rest)).length = str'.length - rest :=
      length_take_of_le (Nat.sub_le _ _)
    obtain ⟨hdrs', hdirect, hne, hfull', hnone, hzero⟩ := writeDirect_emits σ hshut'
      (hemits.fdOpen.trans hopen) htype (str'.take (str'.length - rest)) (by omega) (by omega)
    have hboth : ∀ h ∈ hdrs ++ hdrs', Full T h := fun h' hh =>
      (mem_append.mp hh).elim (hfull h') (hfull' h')
    have hne' : hdrs ++ hdrs' ≠ [] := fun hnil => hne (append_eq_nil_iff.mp hnil).2
    have hall := hemits.after.trans hdirect
    refine ⟨hdrs ++ hdrs', ?_⟩
    rw [andThen_true]
    rcases andThen_eq (mid.writeDirect σ type (str'.take (str'.length - rest))) _ with
      ⟨-, heq⟩ | ⟨-, heq⟩
    · rw [heq]
      refine .of_full (hall.congr rfl rfl) ?_ hboth hne' hlen' hlarge
      by_cases hpad : padding str'.length ≠ 0
      · have hdrop : (str'.drop (str'.length - rest)).length = rest := by
          rw [length_drop]
          omega
        have hrestpos : 0 < rest := by
          rw [hrestdef, if_pos hpad]
          have hlt := padding_lt str'.length
          omega
        simp only [if_pos hpad]
        refine .opened (((Idle.shut hnone hzero).openPacket htype).append _) ?_ ?_
        · rw [Output.append_outPos, Output.openPacket_outPos]
          omega
        · rw [Output.append_outPos, Output.openPacket_outPos, hzero, hdrop, outBufSize]
          omega
      · simp only [if_neg hpad]
        exact .closed hnone hzero
    · rw [heq]
      exact .of_full hall (.closed hnone hzero) hboth hne' hlen' hlarge

theorem writeString_emits (σ : Schedule) (h : Idle T req.out) (hopen : req.fdOpen = true)
    (htype : T type.code) {str : Bytes} (hne : 0 < str.length) :
    ∃ hdrs, WriteEmits T req type str.length hdrs (req.writeString σ type str).2 := by
  have hready := h.switchType type
  rw [Response.writeString]
  simp only
  by_cases hsmall : str.length < (req.out.switchType type).limit
  · rw [if_pos hsmall]
    have hidle := writeSmall_idle hready htype hne hsmall
    refine ⟨[], ⟨(Emits.refl req).congr rfl rfl, hidle, ?_, ?_, ?_, ?_⟩⟩
    · exact fun h hh => absurd hh not_mem_nil
    · exact fun h hh => absurd hh not_mem_nil
    · rw [h.starves_iff]
      constructor
      · rintro ⟨h, hh, -⟩
        exact absurd hh not_mem_nil
      · rintro ⟨-, hlimit, -⟩
        rw [hlimit] at hsmall
        omega
    · exact ⟨fun _ => hsmall, fun _ => rfl⟩
  · rw [if_neg hsmall]
    by_cases hmedium : str.length - (req.out.switchType type).limit < outBufSize - 8
    · rw [if_pos hmedium]
      exact writeMedium_emits hopen hready h htype hsmall hmedium rfl fun _ => rfl
    · have hlimit : 0 ≤ (req.out.switchType type).limit := by
        obtain ⟨_, _, _, limit, _, _, hlimit, _⟩ := hready.openIfClosed htype
        rw [hlimit]
        exact Int.natCast_nonneg limit
      rw [if_neg hmedium]
      rw [outBufSize] at hmedium
      exact writeHuge_emits hopen hready htype hsmall (by rw [outBufSize]; omega)

theorem Idle.buffered {out : Output} (h : Idle T out) :
    ∃ rs, slice out.closePacket.outBuf 0 out.closePacket.outPos = rs.flatMap Record.encode ∧
      (∀ r ∈ rs, Full T r.header) ∧ (rs = [] ↔ out.outPos = 0) := by
  cases h with
  | closed hnone hzero =>
    have hshut : Shut T out [] := Idle.shut hnone hzero
    rw [hshut.closePacket_eq, hzero]
    exact ⟨[], rfl, hshut.full, ⟨fun _ => rfl, fun _ => rfl⟩⟩
  | @opened hdr code rs h filled lt =>
    rw [outBufSize] at lt
    have hpos : out.outPos = hdr + 8 + (out.outPos - (hdr + 8)) := by omega
    obtain ⟨last, hcode, hlength, -, -, hslice⟩ := h.closePacket hpos (by omega)
    refine ⟨rs ++ [last], hslice, ?_, ?_⟩
    · intro r hr
      rcases mem_append.mp hr with hr | hr
      · exact h.full r hr
      · obtain rfl := mem_singleton.mp hr
        exact ⟨hcode ▸ h.allowed, by omega⟩
    · exact ⟨fun h => absurd h (by simp), fun h => by omega⟩

/-- **What one `fcgi_flush` emits**: what is buffered, and the record that ends the request. -/
theorem fcgiFlush_emits_buffered (σ : Schedule) (h : Idle T req.out) (hopen : req.fdOpen = true)
    (fin : Bool) :
    ∃ hdrs, Emits req (hdrs ++ if fin then [makeHeader FcgiRequestType.endRequest.code req.out.id 8
          (padding 8)] else []) (req.fcgiFlush σ fin).2 ∧
      (∀ h ∈ hdrs, Full T h) ∧ (hdrs = [] ↔ req.out.outPos = 0) := by
  obtain ⟨rs, hslice, hfull, hnil⟩ := h.buffered
  have hflush := fcgiFlush_emits σ req hopen fin
  refine ⟨rs.map Record.header, ?_, ?_, map_eq_nil_iff.trans hnil⟩
  · cases fin with
    | false =>
      have hpending : req.out.pending false = rs.flatMap Record.encode := hslice
      rw [hpending, headers_records] at hflush
      rw [if_neg Bool.false_ne_true, append_nil]
      exact hflush
    | true =>
      obtain ⟨body, hlen, -, hpending⟩ := req.out.pending_end
      have hrecords : req.out.pending true =
          (rs ++ [endRecord req.out.id body hlen]).flatMap Record.encode := by
        rw [hpending, hslice, flatMap_append, flatMap_singleton]
      rw [hrecords, headers_records, map_append] at hflush
      exact hflush
  · intro h hh
    obtain ⟨r, hr, rfl⟩ := List.mem_map.mp hh
    exact hfull r hr

end Emits

/-! ## No stream ends early -/

/-- A call of `fcgi_write` with something to write, or of `fcgi_flush(req, 0)`. -/
inductive WriteCall where
  | write (type : FcgiRequestType) (str : Bytes) (pos : 0 < str.length)
  | flush

def WriteCall.apply (σ : Schedule) (req : Response) : WriteCall → Response
  | .write type str _ => (req.fcgiWrite σ type str).2
  | .flush => (req.fcgiFlush σ false).2

def writeCalls (σ : Schedule) : EventSystem Response WriteCall where
  step req call := some (call.apply σ req)

def EndsStream (hdr : FcgiHeader) : Prop :=
  (hdr.type = FcgiRequestType.stdout.code ∨ hdr.type = FcgiRequestType.stderr.code) ∧
    hdr.contentLength = 0

instance (hdr : FcgiHeader) : Decidable (EndsStream hdr) :=
  inferInstanceAs (Decidable ((_ ∨ _) ∧ _))

/-- A packet that the call opens on a stream gets some content. -/
def WriteCall.Feeds (req : Response) : WriteCall → Prop
  | .write type str _ =>
    type = .stdout ∨ type = .stderr → ¬Starves req.out type str.length
  | .flush => True

section NoEmptyStream

variable {σ : Schedule}

theorem fcgiWrite_eq (req : Response) (type : FcgiRequestType) {str : Bytes}
    (hne : 0 < str.length) : (req.fcgiWrite σ type str).2 = (req.writeString σ type str).2 := by
  rw [Response.fcgiWrite, if_neg (Nat.ne_of_gt hne)]

theorem code_eq_stream_iff (type : FcgiRequestType) :
    (type.code = FcgiRequestType.stdout.code ∨ type.code = FcgiRequestType.stderr.code) ↔
      (type = .stdout ∨ type = .stderr) := by
  cases type <;> decide

/-- **One call**: it emits an empty record of a stream exactly where it does not feed it. -/
theorem WriteCall.apply_emits (σ : Schedule) {req : Response} (h : Idle (fun _ => True) req.out)
    (hopen : req.fdOpen = true) (call : WriteCall) :
    Idle (fun _ => True) (call.apply σ req).out ∧ (call.apply σ req).fdOpen = true ∧
      ((∀ hdr ∈ (call.apply σ req).emitted, ¬EndsStream hdr) ↔
        (∀ hdr ∈ req.emitted, ¬EndsStream hdr) ∧ call.Feeds req) := by
  cases call with
  | write type str pos =>
    have htype : (fun _ : UInt8 => True) type.code := trivial
    obtain ⟨hdrs, hemits⟩ := writeString_emits σ h hopen htype pos
    rw [WriteCall.apply, fcgiWrite_eq req type pos, WriteCall.Feeds]
    refine ⟨hemits.idle, hemits.fdOpen.trans hopen, ?_⟩
    rw [hemits.emitted, ← code_eq_stream_iff, ← hemits.empty_iff]
    constructor
    · refine fun hall => ⟨fun hdr hh => hall hdr (mem_append_left _ hh), ?_⟩
      rintro hstream ⟨hdr, hh, hzero⟩
      refine hall hdr (mem_append_right _ hh) ⟨?_, hzero⟩
      rwa [hemits.empty_type hdr hh hzero]
    · rintro ⟨hbefore, hfeeds⟩ hdr hh
      rcases mem_append.mp hh with hh | hh
      · exact hbefore hdr hh
      · rintro ⟨hstream, hzero⟩
        rw [hemits.empty_type hdr hh hzero] at hstream
        exact hfeeds hstream ⟨hdr, hh, hzero⟩
  | flush =>
    obtain ⟨hdrs, hemits, hfull, -⟩ := fcgiFlush_emits_buffered σ h hopen false
    rw [if_neg Bool.false_ne_true, append_nil] at hemits
    refine ⟨fcgiFlush_idle _ σ req false, hemits.fdOpen.trans hopen, ?_⟩
    rw [WriteCall.apply, hemits.emitted]
    refine ⟨fun hall => ⟨fun hdr hh => hall hdr (mem_append_left _ hh), trivial⟩, ?_⟩
    rintro ⟨hbefore, -⟩ hdr hh
    rcases mem_append.mp hh with hh | hh
    · exact hbefore hdr hh
    · exact fun hends => absurd hends.2 (Nat.ne_of_gt (hfull hdr hh).2)

theorem foldl_apply_endsStream (calls : List WriteCall) {req : Response}
    (h : Idle (fun _ => True) req.out) (hopen : req.fdOpen = true) :
    (∀ hdr ∈ (calls.foldl (WriteCall.apply σ) req).emitted, ¬EndsStream hdr) ↔
      (∀ hdr ∈ req.emitted, ¬EndsStream hdr) ∧
        (writeCalls σ).Along (fun req call => call.Feeds req) req calls := by
  -- induction on the calls
  induction calls generalizing req with
  | nil => exact ⟨fun h => ⟨h, trivial⟩, fun h => h.1⟩
  | cons call calls ih =>
    obtain ⟨hidle, hopen', hstep⟩ := call.apply_emits σ h hopen
    rw [foldl_cons, ih hidle hopen', hstep, and_assoc]
    refine and_congr_right fun _ => and_congr_right fun _ => ⟨fun hrest next heq => ?_, ?_⟩
    · obtain rfl := Option.some.inj heq
      exact hrest
    · exact fun h => h _ rfl

/-- **When no stream ends early**: no `fcgi_write` on a stream closes a packet of another type so
near the end of the buffer that the header of its own fills it. -/
theorem noEmptyStream_iff (σ : Schedule) (id : Nat) (outBuf : Nat → UInt8) (keep : Bool)
    (calls : List WriteCall) :
    (∀ hdr ∈ (calls.foldl (WriteCall.apply σ) (Response.init id outBuf keep)).emitted,
        ¬EndsStream hdr) ↔
      (writeCalls σ).Along (fun req call => call.Feeds req) (Response.init id outBuf keep)
        calls := by
  rw [foldl_apply_endsStream calls (.closed rfl rfl) rfl]
  exact ⟨fun h => h.2, fun h => ⟨fun hdr hh => absurd hh not_mem_nil, h⟩⟩

theorem fcgiWrite_small (req : Response) {type : FcgiRequestType} {str : Bytes}
    (hne : 0 < str.length) (hsmall : str.length < (req.out.switchType type).limit) :
    (req.fcgiWrite σ type str).2 =
      { req with out := ((req.out.switchType type).openIfClosed type).append str } := by
  rw [fcgiWrite_eq req type hne, Response.writeString]
  simp only
  rw [if_pos hsmall]

theorem starves_of_length (σ : Schedule) {str : Bytes} (hlen : str.length = 8176) :
    Starves ((Response.init 1 (fun _ => 0) true).fcgiWrite σ .stdout str).2.out .stderr 1 := by
  have hsmall : (str.length : Int) < ((Output.init 1 fun _ => 0).switchType .stdout).limit := by
    rw [hlen]
    decide
  have hopen : ((Output.init 1 fun _ => 0).switchType .stdout).openIfClosed .stdout =
      (Output.init 1 fun _ => 0).openPacket .stdout := rfl
  rw [fcgiWrite_small (Response.init 1 (fun _ => 0) true) (by omega) hsmall, Starves,
    Response.init, hopen, Output.append_outPos, hlen, Output.append_outBuf]
  refine ⟨⟨0, rfl, ?_⟩, by decide, by decide⟩
  rw [store_before (by decide)]
  decide

/-- 8176 bytes of output, and then a message for the error log of the web server. -/
def starvingCalls : List WriteCall :=
  [.write .stdout (List.replicate 8176 65) (List.length_replicate ▸ Nat.succ_pos 8175),
    .write .stderr [120] (Nat.succ_pos 0)]

/-- The second call closes the packet of the first and ends the other stream before it writes. -/
theorem not_noEmptyStream :
    ¬∀ hdr ∈ (starvingCalls.foldl (WriteCall.apply interrupted)
      (Response.init 1 (fun _ => 0) true)).emitted, ¬EndsStream hdr := by
  intro h
  have hlen : (List.replicate 8176 (65 : UInt8)).length = 8176 := length_replicate
  obtain ⟨-, -, halong⟩ := (foldl_apply_endsStream starvingCalls (.closed rfl rfl) rfl).mp h
  obtain ⟨hfeeds, -⟩ := halong _ rfl
  rw [WriteCall.Feeds, WriteCall.apply] at hfeeds
  exact hfeeds (.inr rfl) (starves_of_length interrupted hlen)

end NoEmptyStream

/-! ## The end of a request -/

inductive RequestCall where
  | write (stream : Stream) (str : Bytes)
  | flush (fin : Bool)
  | endRequest
  | finishRequest (forceClose : Bool)
  | close (force : Bool)
  deriving DecidableEq, Repr

def RequestCall.apply (σ : Schedule) (req : Response) : RequestCall → Response
  | .write stream str => (req.fcgiWrite σ stream.type str).2
  | .flush fin => (req.fcgiFlush σ fin).2
  | .endRequest => (req.fcgiEnd σ).2
  | .finishRequest forceClose => (req.fcgiFinishRequest σ forceClose).2
  | .close force => req.fcgiClose force

def requestCalls (σ : Schedule) : EventSystem Response RequestCall where
  step req call := some (call.apply σ req)

def EndsRequest (hdr : FcgiHeader) : Prop := hdr.type = FcgiRequestType.endRequest.code

instance (hdr : FcgiHeader) : Decidable (EndsRequest hdr) :=
  inferInstanceAs (Decidable (_ = _))

/-- At most one record ends the request, and none of its streams comes behind it. -/
def EndFinal (hdrs : List FcgiHeader) : Prop :=
  hdrs.Pairwise fun a b => EndsRequest a → ¬EndsRequest b ∧
    b.type ≠ FcgiRequestType.stdout.code ∧ b.type ≠ FcgiRequestType.stderr.code

def RequestCall.Silent (req : Response) : RequestCall → Prop
  | .write stream str => str.length = 0 ∨ str.length < (req.out.switchType stream.type).limit
  | .flush fin => fin = false ∧ req.out.outPos = 0
  | .endRequest => req.out.ended = true
  | .finishRequest _ => req.out.ended = true
  | .close _ => True

/-- Once the request is ended on a descriptor that is still open, the call is silent. -/
def RequestCall.Respects (req : Response) (call : RequestCall) : Prop :=
  (∃ hdr ∈ req.emitted, EndsRequest hdr) → req.fdOpen = true → call.Silent req

instance (hdrs : List FcgiHeader) : Decidable (EndFinal hdrs) :=
  inferInstanceAs (Decidable (hdrs.Pairwise _))

section EndFinal

variable {σ : Schedule} {req r : Response} {hdrs : List FcgiHeader}

def IsStream (code : UInt8) : Prop :=
  code = FcgiRequestType.stdout.code ∨ code = FcgiRequestType.stderr.code

/-- Between two calls: the records so far are of the streams or end the request, and so are those
in the buffer of an open descriptor. -/
structure Running (req : Response) : Prop where
  idle : req.fdOpen = true → Idle IsStream req.out
  types : ∀ hdr ∈ req.emitted, IsStream hdr.type ∨ EndsRequest hdr

/-- What a call adds to the records: nothing, or records of the streams and then perhaps the one
that ends the request. -/
structure Adds (req : Response) (hdrs : List FcgiHeader) (r : Response) : Prop where
  emitted : r.emitted = req.emitted ++ hdrs
  types : ∀ hdr ∈ hdrs, IsStream hdr.type ∨ EndsRequest hdr
  final : EndFinal hdrs

theorem not_endsRequest {hdr : FcgiHeader} (h : IsStream hdr.type) : ¬EndsRequest hdr := by
  intro hend
  rw [EndsRequest] at hend
  rw [IsStream, hend] at h
  exact absurd h (by decide)

theorem endFinal_of_streams (h : ∀ hdr ∈ hdrs, IsStream hdr.type) : EndFinal hdrs := by
  refine pairwise_of_forall_mem_list ?_
  exact fun a ha _ _ hend => absurd hend (not_endsRequest (h a ha))

theorem endFinal_append {hdrs' : List FcgiHeader}
    (htypes : ∀ hdr ∈ hdrs', IsStream hdr.type ∨ EndsRequest hdr) (hfinal : EndFinal hdrs') :
    EndFinal (hdrs ++ hdrs') ↔
      EndFinal hdrs ∧ ((∃ hdr ∈ hdrs, EndsRequest hdr) → hdrs' = []) := by
  rw [EndFinal, pairwise_append]
  refine and_congr_right fun _ => ⟨?_, fun h => ⟨hfinal, ?_⟩⟩
  · rintro ⟨-, hall⟩ ⟨a, ha, hend⟩
    refine eq_nil_iff_forall_not_mem.mpr fun b hb => ?_
    obtain ⟨hnot, hout, herr⟩ := hall a ha b hb hend
    rcases htypes b hb with (hstream | hstream) | hend'
    · exact hout hstream
    · exact herr hstream
    · exact hnot hend'
  · intro a ha b hb hend
    rw [h ⟨a, ha, hend⟩] at hb
    exact absurd hb not_mem_nil

theorem Adds.nil (h : Emits req [] r) : Adds req [] r :=
  ⟨h.emitted, fun _ hh => absurd hh not_mem_nil, .nil⟩

theorem Running.add (h : Running req) (hadds : Adds req hdrs r)
    (hidle : r.fdOpen = true → Idle IsStream r.out) : Running r where
  idle := hidle
  types := by
    rw [hadds.emitted]
    exact fun hdr hh => (mem_append.mp hh).elim (h.types hdr) (hadds.types hdr)

theorem writeDirect_closed (σ : Schedule) (hclosed : req.fdOpen = false)
    (type : FcgiRequestType) (data : Bytes) :
    (req.writeDirect σ type data).1 = false ∧ Emits req [] (req.writeDirect σ type data).2 := by
  unfold Response.writeDirect
  set out : Output :=
    { (req.out.openPacket type).fcgiMakeHeader req.out.outPos type.code data.length with
      outHdr := none }
  obtain ⟨hfail, hemits⟩ :=
    fcgiFlush_closed σ { req with out := out } hclosed false
  rcases andThen_eq ({ req with out := out }.fcgiFlush σ false) _ with ⟨hok, -⟩ | ⟨-, heq⟩
  · exact Bool.noConfusion (hfail.symm.trans hok)
  · rw [heq]
    exact ⟨hfail, hemits.after⟩

theorem writeLarge_closed (σ : Schedule) (req : Response) (hclosed : req.fdOpen = false)
    (type : FcgiRequestType) (fuel : Nat) (str : Bytes) :
    Emits req [] (req.writeLarge σ type fuel str).1.2 := by
  cases fuel with
  | zero => exact .refl req
  | succ fuel =>
    rw [Response.writeLarge]
    by_cases hlong : 0xffff < str.length
    · obtain ⟨hfail, hemits⟩ :=
        writeDirect_closed σ hclosed type (str.take 0xfff8)
      rw [if_pos hlong]
      simp only
      rw [hfail, if_neg Bool.false_ne_true]
      exact hemits
    · rw [if_neg hlong]
      exact .refl req

theorem writeString_closed (hclosed : req.fdOpen = false) (type : FcgiRequestType) (str : Bytes) :
    Emits req [] (req.writeString σ type str).2 := by
  rw [Response.writeString]
  simp only
  split
  · exact (Emits.refl req).congr rfl rfl
  · split
    · set out := if 0 < (req.out.switchType type).limit then
        ((req.out.switchType type).openIfClosed type).append
          (str.take (req.out.switchType type).limit.toNat)
        else (req.out.switchType type).openIfClosed type
      obtain ⟨hfail, hemits⟩ :=
        fcgiFlush_closed σ { req with out := out } hclosed false
      rcases andThen_eq ({ req with out := out }.fcgiFlush σ false) _ with ⟨hok, -⟩ | ⟨-, heq⟩
      · exact Bool.noConfusion (hfail.symm.trans hok)
      · rw [heq]
        exact hemits.after
    · have hlarge := (writeLarge_closed σ
        { req with out := (req.out.switchType type).closePacket } hclosed type str.length
        str).after
      generalize { req with out := (req.out.switchType type).closePacket }.writeLarge σ type
        str.length str = result at hlarge ⊢
      obtain ⟨⟨ok, mid⟩, str'⟩ := result
      cases ok with
      | false => exact hlarge
      | true =>
        obtain ⟨hfail, hemits⟩ := writeDirect_closed σ (hlarge.fdOpen.trans hclosed) type
          (str'.take (str'.length -
            if padding str'.length ≠ 0 then 8 - padding str'.length else 0))
        rw [andThen_true]
        rcases andThen_eq (mid.writeDirect σ type (str'.take (str'.length -
            if padding str'.length ≠ 0 then 8 - padding str'.length else 0))) _ with
          ⟨hok, -⟩ | ⟨-, heq⟩
        · exact Bool.noConfusion (hfail.symm.trans hok)
        · rw [heq]
          exact hlarge.trans hemits

/-- What a call leaves: the records it adds, which are none where it is silent. -/
structure CallResult (req : Response) (silent : Prop) (r : Response) : Prop where
  running : Running r
  adds : ∃ hdrs, Adds req hdrs r ∧ (hdrs = [] ↔ (req.fdOpen = true → silent))

theorem CallResult.of_closed {silent : Prop} (h : Running req) (hclosed : req.fdOpen = false)
    (hemits : Emits req [] r) : CallResult req silent r := by
  have hnot : ¬req.fdOpen = true := fun hopen => Bool.noConfusion (hclosed.symm.trans hopen)
  refine ⟨h.add (.nil hemits) fun hopen => absurd (hemits.fdOpen.symm.trans hopen) hnot, [],
    .nil hemits, fun _ hopen => absurd hopen hnot, fun _ => rfl⟩

theorem CallResult.of_silent {silent : Prop} (h : Running req) (hsilent : silent)
    (hhanded : r.handed = req.handed) (hidle : r.fdOpen = true → Idle IsStream r.out) :
    CallResult req silent r := by
  have hadds : Adds req [] r := by
    refine ⟨?_, fun _ hh => absurd hh not_mem_nil, .nil⟩
    rw [Response.emitted, hhanded, append_nil]
    rfl
  exact ⟨h.add hadds hidle, [], hadds, fun _ _ => hsilent, fun _ => rfl⟩

theorem Running.fcgiWrite (h : Running req) (stream : Stream) (str : Bytes) :
    CallResult req ((RequestCall.write stream str).Silent req)
      (req.fcgiWrite σ stream.type str).2 := by
  by_cases hnil : str.length = 0
  · rw [Response.fcgiWrite, if_pos hnil]
    exact .of_silent h (.inl hnil) rfl h.idle
  · have hpos : 0 < str.length := Nat.pos_of_ne_zero hnil
    rw [fcgiWrite_eq req stream.type hpos]
    cases hopen : req.fdOpen with
    | false => exact .of_closed h hopen (writeString_closed hopen stream.type str)
    | true =>
      have htype : IsStream stream.type.code := by
        cases stream with
        | stdout => exact .inl rfl
        | stderr => exact .inr rfl
      obtain ⟨hdrs, hemits⟩ := writeString_emits σ (h.idle hopen) hopen htype hpos
      have hadds : Adds req hdrs (req.writeString σ stream.type str).2 :=
        ⟨hemits.emitted, fun hdr hh => .inl (hemits.allowed hdr hh),
          endFinal_of_streams hemits.allowed⟩
      refine ⟨h.add hadds fun _ => hemits.idle, hdrs, hadds, ?_⟩
      rw [hemits.nil_iff, RequestCall.Silent]
      exact ⟨fun hlt _ => .inr hlt, fun hsilent => (hsilent hopen).resolve_left hnil⟩

theorem Running.fcgiFlush (σ : Schedule) (h : Running req) (fin : Bool) :
    CallResult req ((RequestCall.flush fin).Silent req) (req.fcgiFlush σ fin).2 := by
  cases hopen : req.fdOpen with
  | false => exact .of_closed h hopen (fcgiFlush_closed σ req hopen fin).2
  | true =>
    obtain ⟨hdrs, hemits, hfull, hnil⟩ :=
      fcgiFlush_emits_buffered σ (h.idle hopen) hopen fin
    have hstreams : ∀ hdr ∈ hdrs, IsStream hdr.type := fun hdr hh => (hfull hdr hh).1
    cases fin with
    | false =>
      rw [if_neg Bool.false_ne_true, append_nil] at hemits
      have hadds : Adds req hdrs (req.fcgiFlush σ false).2 :=
        ⟨hemits.emitted, fun hdr hh => .inl (hstreams hdr hh), endFinal_of_streams hstreams⟩
      refine ⟨h.add hadds fun _ => fcgiFlush_idle _ σ req false, hdrs, hadds, ?_⟩
      rw [hnil, RequestCall.Silent]
      exact ⟨fun hzero _ => ⟨rfl, hzero⟩, fun hsilent => (hsilent hopen).2⟩
    | true =>
      rw [if_pos rfl] at hemits
      set last := makeHeader FcgiRequestType.endRequest.code req.out.id 8 (padding 8)
      have hend : ∀ hdr ∈ [last], EndsRequest hdr := fun hdr hh => by
        rw [mem_singleton.mp hh]
        rfl
      have hadds : Adds req (hdrs ++ [last]) (req.fcgiFlush σ true).2 := by
        refine ⟨hemits.emitted, fun hdr hh => ?_, ?_⟩
        · exact (mem_append.mp hh).imp (hstreams hdr) (hend hdr)
        · refine (endFinal_append (fun hdr hh => .inr (hend hdr hh))
            (pairwise_singleton _ _)).mpr ⟨endFinal_of_streams hstreams, ?_⟩
          rintro ⟨hdr, hh, hdrend⟩
          exact absurd hdrend (not_endsRequest (hstreams hdr hh))
      refine ⟨h.add hadds fun _ => fcgiFlush_idle _ σ req true, hdrs ++ [last], hadds, ?_⟩
      rw [RequestCall.Silent]
      exact ⟨fun h => absurd h (by simp), fun hsilent => Bool.noConfusion (hsilent hopen).1⟩

theorem CallResult.congr {silent silent' : Prop} {r' : Response} (h : CallResult req silent r)
    (hsilent : silent ↔ silent') (hhanded : r'.handed = r.handed)
    (hidle : r'.fdOpen = true → Idle IsStream r'.out) : CallResult req silent' r' := by
  obtain ⟨hdrs, hadds, hnil⟩ := h.adds
  have hemitted : r'.emitted = r.emitted := by
    rw [Response.emitted, hhanded]
    rfl
  refine ⟨⟨hidle, by rw [hemitted]; exact h.running.types⟩, hdrs,
    ⟨hemitted.trans hadds.emitted, hadds.types, hadds.final⟩, ?_⟩
  rw [hnil, hsilent]

theorem Running.fcgiEnd (σ : Schedule) (h : Running req) :
    CallResult req (req.out.ended = true) (req.fcgiEnd σ).2 := by
  rw [Response.fcgiEnd]
  by_cases hended : req.out.ended = true
  · rw [if_pos hended]
    exact .of_silent h hended rfl h.idle
  · rw [if_neg hended]
    refine (h.fcgiFlush σ true).congr ?_ rfl ?_
    · exact ⟨fun hsilent => Bool.noConfusion hsilent.1, fun h => absurd h hended⟩
    · obtain ⟨hnone, hzero⟩ := fcgiFlush_closes σ req true
      exact fun _ => .closed hnone hzero

theorem fcgiClose_handed (req : Response) (force : Bool) :
    (req.fcgiClose force).handed = req.handed := by
  unfold Response.fcgiClose
  split <;> rfl

theorem fcgiClose_idle (force : Bool) (h : req.fdOpen = true → Idle IsStream req.out)
    (hopen : (req.fcgiClose force).fdOpen = true) : Idle IsStream (req.fcgiClose force).out := by
  unfold Response.fcgiClose at hopen ⊢
  split at hopen
  · exact Bool.noConfusion hopen
  · rename_i hkept
    rw [if_neg hkept]
    exact h hopen

theorem Running.apply (σ : Schedule) (h : Running req) (call : RequestCall) :
    CallResult req (call.Silent req) (call.apply σ req) := by
  cases call with
  | write stream str => exact h.fcgiWrite stream str
  | flush fin => exact h.fcgiFlush σ fin
  | endRequest => exact h.fcgiEnd σ
  | finishRequest forceClose =>
    rw [RequestCall.apply, Response.fcgiFinishRequest]
    cases hopen : req.fdOpen with
    | false =>
      rw [if_neg Bool.false_ne_true]
      exact .of_closed h hopen (.refl req)
    | true =>
      have hend := h.fcgiEnd σ
      rw [if_pos rfl]
      exact hend.congr Iff.rfl (fcgiClose_handed _ forceClose)
        (fcgiClose_idle forceClose hend.running.idle)
  | close force =>
    exact .of_silent h trivial (fcgiClose_handed req force) (fcgiClose_idle force h.idle)

theorem foldl_apply_endFinal (calls : List RequestCall) (h : Running req) :
    EndFinal (calls.foldl (RequestCall.apply σ) req).emitted ↔
      EndFinal req.emitted ∧
        (requestCalls σ).Along (fun req call => call.Respects req) req calls := by
  -- induction on the calls
  induction calls generalizing req with
  | nil => exact ⟨fun h => ⟨h, trivial⟩, fun h => h.1⟩
  | cons call calls ih =>
    obtain ⟨hrunning, hdrs, hadds, hnil⟩ := h.apply σ call
    rw [foldl_cons, ih hrunning, hadds.emitted, endFinal_append hadds.types hadds.final, hnil,
      and_assoc]
    refine and_congr_right fun _ => and_congr_right fun _ => ⟨fun hrest next heq => ?_, ?_⟩
    · obtain rfl := Option.some.inj heq
      exact hrest
    · exact fun h => h _ rfl

/-- **When the end of a request is final**: once a record has ended it, no call reaches the
descriptor while that is open. -/
theorem endFinal_iff (σ : Schedule) (id : Nat) (outBuf : Nat → UInt8) (keep : Bool)
    (calls : List RequestCall) :
    EndFinal (calls.foldl (RequestCall.apply σ) (Response.init id outBuf keep)).emitted ↔
      (requestCalls σ).Along (fun req call => call.Respects req) (Response.init id outBuf keep)
        calls := by
  have hinit : Running (Response.init id outBuf keep) :=
    ⟨fun _ => .closed rfl rfl, fun hdr hh => absurd hh not_mem_nil⟩
  rw [foldl_apply_endFinal calls hinit]
  exact ⟨fun h => h.2, fun h => ⟨.nil, h⟩⟩

/-- Output after `fastcgi_finish_request`, on a connection that is kept. -/
theorem not_endFinal :
    ¬EndFinal ([.write .stdout [97], .endRequest, .close false, .write .stdout [98],
        .flush false].foldl (RequestCall.apply interrupted)
      (Response.init 1 (fun _ => 0) true)).emitted := by
  decide +kernel

end EndFinal

end Fcgi

end Phpce
