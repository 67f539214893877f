import HeisenKernel.Imaging.Inflate
import HeisenKernel.Imaging.Reconstruct

/-!
# Files that the PNG decoder can take

`ConvertRAW` follows chunk lengths, code tables, distances and image sizes without a check.
-/

namespace HeisenKernel.Imaging

open HeisenKernel.Lib Deflate List Nat

/-- The array has the given elements from an offset on. -/
def Has {α : Type} (l : List α) (offset : Nat) (part : List α) : Prop :=
  ∀ i < part.length, l[offset + i]? = part[i]?

theorem has_append : Has l offset (part ++ part') ↔
    Has l offset part ∧ Has l (offset + part.length) part' := by
  refine ⟨fun h => ⟨fun i hi => ?_, fun i hi => ?_⟩, fun h i hi => ?_⟩
  · rw [h i (by rw [length_append]; omega), getElem?_append_left hi]
  · have := h (part.length + i) (by rw [length_append]; omega)
    rwa [getElem?_append_right (Nat.le_add_right _ _), Nat.add_sub_cancel_left, ← add_assoc] at this
  · rcases lt_or_ge i part.length with hlt | hge
    · rw [h.1 i hlt, getElem?_append_left hlt]
    · rw [length_append] at hi
      have := h.2 (i - part.length) (by omega)
      rwa [add_assoc, add_sub_of_le hge, ← getElem?_append_right hge] at this

theorem has_self (l : List α) : Has l 0 l := fun i _ => by rw [zero_add]

theorem Has.readAt (h : Has l offset part) (hi : part[i]? = some a) : readAt l (offset + i) = .ok a := by
  obtain ⟨hlt, -⟩ := List.getElem?_eq_some_iff.1 hi
  exact readAt_eq ((h i hlt).trans hi)

theorem Has.length_le (h : Has l offset part) (hne : part ≠ []) : offset + part.length ≤ l.length := by
  have hpos := length_pos_of_ne_nil hne
  have hlast := h (part.length - 1) (by omega)
  rw [getElem?_eq_getElem (show part.length - 1 < part.length by omega)] at hlast
  obtain ⟨hlt, -⟩ := List.getElem?_eq_some_iff.1 hlast
  omega

theorem Has.congr (h : Has l offset part)
    (hsame : ∀ i < part.length, l'[offset + i]? = l[offset + i]?) : Has l' offset part :=
  fun i hi => (hsame i hi).trans (h i hi)

/-- A 32-bit number in a PNG file. -/
def be32 (n : Nat) : List UInt8 :=
  [UInt8.ofNat (n / 2 ^ 24), UInt8.ofNat (n / 2 ^ 16), UInt8.ofNat (n / 2 ^ 8), UInt8.ofNat n]

theorem Has.readFour (h : Has raw offset [a, b, c, d])
    (hoffset : offset + 4 ≤ 2 ^ 32) :
    Imaging.readAt raw offset = .ok a ∧ Imaging.readAt raw (u32 (offset + 1)) = .ok b ∧ Imaging.readAt raw
      (u32 (offset + 2)) = .ok c ∧ Imaging.readAt raw (u32 (offset + 3)) = .ok d := by
  rw [u32_eq (by omega), u32_eq (by omega), u32_eq (by omega)]
  exact ⟨h.readAt (i := 0) rfl, h.readAt rfl, h.readAt rfl, h.readAt rfl⟩

theorem be32_value (hn : n < 2 ^ 32) :
    (((UInt8.ofNat (n / 2 ^ 24)).toNat * 256 + (UInt8.ofNat (n / 2 ^ 16)).toNat) * 256 +
      (UInt8.ofNat (n / 2 ^ 8)).toNat) * 256 + (UInt8.ofNat n).toNat = n := by
  simp only [UInt8.toNat_ofNat']
  omega

theorem readBigEndian_eq (h : Has raw offset (be32 n)) (hn : n < 2 ^ 32)
    (hoffset : offset + 4 ≤ 2 ^ 32) : readBigEndian raw offset = .ok n := by
  obtain ⟨h0, h1, h2, h3⟩ := h.readFour hoffset
  rw [readBigEndian, bind_of_ok h0, bind_of_ok h1, bind_of_ok h2, bind_of_ok h3]
  exact congrArg Except.ok (be32_value hn)

theorem readLittleEndian_eq (h : Has raw offset (be32 n).reverse) (hn : n < 2 ^ 32)
    (hoffset : offset + 4 ≤ 2 ^ 32) : readLittleEndian raw offset = .ok n := by
  obtain ⟨h0, h1, h2, h3⟩ := Has.readFour (show Has raw offset [_, _, _, _] from h) hoffset
  rw [readLittleEndian, bind_of_ok h0, bind_of_ok h1, bind_of_ok h2, bind_of_ok h3]
  exact congrArg Except.ok (be32_value hn)

theorem swapBytes_eq (h : Has raw offset [a, b, c, d])
    (hoffset : offset + 4 ≤ 2 ^ 32) :
    ∃ raw', swapBytes raw offset = .ok raw' ∧ raw'.length = raw.length ∧ Has raw' offset
      [d, c, b, a] ∧ ∀ i, i < offset ∨ offset + 4 ≤ i → raw'[i]? = raw[i]? := by
  have hlen : offset + 4 ≤ raw.length := h.length_le (by simp)
  refine ⟨(((raw.set offset d).set (offset + 1) c).set (offset + 2) b).set (offset + 3) a, ?_, by simp,
    fun i hi => ?_, fun i hi => ?_⟩
  · obtain ⟨h0, h1, h2, h3⟩ := h.readFour hoffset
    rw [swapBytes, bind_of_ok h0, bind_of_ok h1, bind_of_ok h2, bind_of_ok h3,
      u32_eq (by omega), u32_eq (by omega), u32_eq (by omega), bind_of_ok (writeAt_eq _ (by omega)), bind_of_ok (writeAt_eq _ (by simp; omega)),
      bind_of_ok (writeAt_eq _ (by simp; omega)), writeAt_eq _ (by simp; omega)]
  · simp only [length_cons, length_nil] at hi
    simp only [getElem?_set]
    interval_cases i <;> simp <;> omega
  · rw [getElem?_set_ne (by omega), getElem?_set_ne (by omega),
      getElem?_set_ne (by omega), getElem?_set_ne (by omega)]

theorem bytesEqual_eq (h : Has raw offset part)
    (hlen : part.length = bytes.length) (hoffset : offset + bytes.length ≤ 2 ^ 32) :
    bytesEqual raw offset bytes = .ok (decide (part = bytes)) := by
  induction bytes generalizing offset part with
  | nil =>
    obtain rfl := eq_nil_of_length_eq_zero hlen
    rfl
  | cons b bytes ih =>
    obtain _ | ⟨a, part⟩ := part
    · cases hlen
    rw [length_cons] at hoffset
    have hhead : readAt raw offset = .ok a := h.readAt (i := 0) rfl
    rw [bytesEqual, bind_of_ok hhead]
    by_cases hab : a = b
    · subst hab
      cases bytes with
      | nil =>
        obtain rfl := eq_nil_of_length_eq_zero (succ.inj hlen)
        simp [bytesEqual]
      | cons c bytes =>
        rw [length_cons] at hoffset
        have htail : Has raw (offset + 1) part := (has_append.1 (show Has raw offset ([a] ++ part) from h)).2
        rw [if_pos rfl, u32_eq (by omega), ih htail (succ.inj hlen) (by rw [length_cons]; omega)]
        simp
    · rw [if_neg hab]
      simp [hab]
      rfl

theorem bytesEqual_false (h : ¬ raw.drop offset <+: bytes) (h' : ¬ bytes <+: raw.drop offset)
    (hoffset : offset + bytes.length < 2 ^ 32) : bytesEqual raw offset bytes = .ok false := by
  induction bytes generalizing offset with
  | nil => exact absurd nil_prefix h'
  | cons b bytes ih =>
    rw [length_cons] at hoffset
    cases hdrop : raw.drop offset with
    | nil =>
      rw [hdrop] at h
      exact absurd nil_prefix h
    | cons a rest =>
      have hread : readAt raw offset = .ok a := by
        refine readAt_eq ?_
        rw [← head?_drop, hdrop, head?_cons]
      have hrest : raw.drop (offset + 1) = rest := by
        rw [← drop_drop, hdrop, drop_one, tail_cons]
      rw [bytesEqual, bind_of_ok hread]
      rw [hdrop, cons_prefix_cons] at h h'
      by_cases hab : a = b
      · subst hab
        rw [if_pos rfl, u32_eq (by omega)]
        refine ih ?_ ?_ (by omega)
        · rw [hrest]
          exact fun hp => h ⟨rfl, hp⟩
        · rw [hrest]
          exact fun hp => h' ⟨rfl, hp⟩
      · rw [if_neg hab]
        rfl

/-- A chunk of a PNG file. -/
structure Chunk where
  type : List UInt8
  data : List UInt8
  crc : List UInt8
  type_length : type.length = 4
  crc_length : crc.length = 4

/-- The bytes of a chunk. -/
def Chunk.bytes (c : Chunk) : List UInt8 := be32 c.data.length ++ (c.type ++ (c.data ++ c.crc))

/-- The data of an IHDR chunk. -/
structure Header where
  width : Nat
  height : Nat
  bits : UInt8
  colorType : UInt8
  compression : UInt8
  filter : UInt8
  interlace : UInt8
  width_lt : width < 2 ^ 32
  height_lt : height < 2 ^ 32

/-- The bytes of an image header. -/
def Header.bytes (h : Header) : List UInt8 :=
  be32 h.width ++ (be32 h.height ++ [h.bits, h.colorType, h.compression, h.filter, h.interlace])

/-- The images that the decoder takes: 8 bits, RGBA, not interlaced. -/
def Header.Supported (h : Header) : Prop :=
  h.compression = 0 ∧ h.filter = 0 ∧ h.colorType = 6 ∧ h.bits = 8 ∧ h.interlace = 0

instance (h : Header) : Decidable h.Supported := inferInstanceAs (Decidable (_ ∧ _))

/-- The compressed image: the data of the IDAT chunks. -/
def idatData (chunks : List Chunk) : List (List UInt8) :=
  (chunks.filter (·.type = typeIDAT)).map (·.data)

/-- The files that the decoder gets through. -/
inductive Decodable (raw : List UInt8) : Prop
  /-- The file differs from the signature before it ends. -/
  | foreign (short : ¬ raw <+: signature) (differs : ¬ signature <+: raw)
  /-- The first chunk is an IHDR chunk of a kind that is not supported. -/
  | unsupported (length : Nat) (header : Header) (tail : List UInt8) (length_lt : length < 2 ^ 32)
      (file : raw = signature ++ (be32 length ++ (typeIHDR ++ (header.bytes ++ tail))))
      (rejected : ¬ header.Supported)
  /-- An image that is supported: the IHDR chunk comes first, the chunks lie within the file up to the
  IEND chunk, the IDAT chunks hold a ZLIB stream without a dictionary, and the stream has a byte for
  each filter type and sample of an image that fits in memory. -/
  | image (header : Header) (ihdr : Chunk) (chunks : List Chunk) (length : Nat)
      (tail out : List UInt8) (length_lt : length < 2 ^ 32) (raw_length : raw.length < 2 ^ 32)
      (file : raw = signature ++ (ihdr.bytes ++ (chunks.flatMap Chunk.bytes ++
        (be32 length ++ (typeIEND ++ tail)))))
      (first : ihdr.type = typeIHDR) (first_data : ihdr.data = header.bytes)
      (supported : header.Supported)
      (others : ∀ c ∈ chunks, c.type ≠ typeIHDR ∧ c.type ≠ typeIEND)
      (stream : Zlib false (idatData chunks).flatten out)
      (enough : header.height * (4 * header.width + 1) ≤ out.length)
      (fits : 4 * header.width * header.height < 2 ^ 32)

variable {raw : List UInt8}

theorem Has.chunk {c : Chunk} (h : Has raw offset c.bytes) :
    Has raw offset (be32 c.data.length) ∧ Has raw (offset + 4) c.type ∧
      Has raw (offset + 8) c.data ∧ offset + 12 + c.data.length ≤ raw.length := by
  have hlen := h.length_le (by simp [Chunk.bytes, be32])
  obtain ⟨hnum, hrest⟩ := has_append.1 h
  obtain ⟨htype, hrest⟩ := has_append.1 hrest
  obtain ⟨hdata, -⟩ := has_append.1 hrest
  rw [c.type_length] at hdata
  refine ⟨hnum, htype, hdata, ?_⟩
  simp only [Chunk.bytes, length_append, c.type_length, c.crc_length] at hlen
  have hbe : (be32 c.data.length).length = 4 := rfl
  omega

theorem Chunk.length_bytes (c : Chunk) : c.bytes.length = 12 + c.data.length := by
  have hbe : (be32 c.data.length).length = 4 := rfl
  simp only [Chunk.bytes, length_append, c.type_length, c.crc_length]
  omega

theorem readChunks_chunk {c : Chunk} (h : Has s.rawData offset c.bytes)
    (hraw : s.rawData.length < 2 ^ 32) (hihdr : c.type ≠ typeIHDR) (hiend : c.type ≠ typeIEND)
    (fuel : Nat) :
    readChunks (fuel + 1) offset s = readChunks fuel (offset + c.bytes.length)
      (if c.type = typeIDAT then
        { s with imgData := s.imgData ++ [(offset + 8, c.data.length)] } else s) := by
  obtain ⟨hnum, htype, -, hle⟩ := h.chunk
  have hnext : u32 (offset + (12 + c.data.length)) = offset + c.bytes.length := by
    rw [c.length_bytes]
    exact u32_eq (by omega)
  have hequal (bytes : List UInt8) (hlen : bytes.length = 4) :
      bytesEqual s.rawData (u32 (offset + 4)) bytes = .ok (decide (c.type = bytes)) := by
    rw [u32_eq (by omega)]
    exact bytesEqual_eq htype (c.type_length.trans hlen.symm) (by omega)
  rw [readChunks, bind_of_ok (readBigEndian_eq hnum (by omega) (by omega))]
  rw [bind_of_ok (hequal typeIHDR rfl), bind_of_ok (hequal typeIDAT rfl),
    bind_of_ok (hequal typeIEND rfl), hnext, u32_eq (show offset + 8 < 2 ^ 32 by omega)]
  simp only [hihdr, hiend, decide_false, decide_eq_true_eq, Bool.false_eq_true, if_false]
  split <;> rfl

theorem readChunks_iend {length : Nat} (h : Has s.rawData offset (be32 length ++ typeIEND))
    (hlength : length < 2 ^ 32) (hraw : s.rawData.length < 2 ^ 32) (fuel : Nat) :
    readChunks (fuel + 1) offset s = .ok (some s) := by
  have hle := h.length_le (by simp [be32])
  have hlen8 : (be32 length ++ typeIEND).length = 8 := rfl
  obtain ⟨hnum, htype⟩ := has_append.1 h
  have hequal (bytes : List UInt8) (hlen : bytes.length = 4) :
      bytesEqual s.rawData (u32 (offset + 4)) bytes = .ok (decide (typeIEND = bytes)) := by
    rw [u32_eq (by omega)]
    exact bytesEqual_eq htype hlen.symm (by omega)
  rw [readChunks, bind_of_ok (readBigEndian_eq hnum hlength (by omega))]
  rw [bind_of_ok (hequal typeIHDR rfl), bind_of_ok (hequal typeIDAT rfl), bind_of_ok (hequal typeIEND rfl)]
  rfl

/-- Offset and length of data that lies in the file. -/
def Located (raw : List UInt8) (p : Nat × Nat) (data : List UInt8) : Prop :=
  p.2 = data.length ∧ Has raw p.1 data

theorem readChunks_chunks {length : Nat} (hlength : length < 2 ^ 32)
    (hothers : ∀ c ∈ chunks, c.type ≠ typeIHDR ∧ c.type ≠ typeIEND)
    (h : Has s.rawData offset (chunks.flatMap Chunk.bytes ++ (be32 length ++ typeIEND)))
    (hraw : s.rawData.length < 2 ^ 32) (hfuel : chunks.length < fuel) :
    ∃ imgData, readChunks fuel offset s = .ok (some { s with imgData := s.imgData ++ imgData }) ∧
      List.Forall₂ (Located s.rawData) imgData (idatData chunks) := by
  induction chunks generalizing offset s fuel with
  | nil =>
    obtain _ | fuel := fuel
    · omega
    refine ⟨[], ?_, List.Forall₂.nil⟩
    rw [append_nil]
    exact readChunks_iend h hlength hraw fuel
  | cons c chunks ih =>
    obtain _ | fuel := fuel
    · omega
    rw [flatMap_cons, append_assoc] at h
    obtain ⟨hc, hrest⟩ := has_append.1 h
    obtain ⟨hihdr, hiend⟩ := hothers c mem_cons_self
    have hothers' := (forall_mem_cons.1 hothers).2
    rw [readChunks_chunk hc hraw hihdr hiend]
    split
    · next htype =>
      obtain ⟨imgData, hread, hloc⟩ :=
        ih (s := { s with imgData := s.imgData ++ [(offset + 8, c.data.length)] }) hothers' hrest hraw
          (lt_of_succ_lt_succ hfuel)
      refine ⟨(offset + 8, c.data.length) :: imgData, ?_, ?_⟩
      · rw [hread, append_assoc]
        rfl
      · rw [idatData, filter_cons_of_pos (by simpa using htype), map_cons]
        exact List.Forall₂.cons ⟨rfl, hc.chunk.2.2.1⟩ hloc
    · next htype =>
      obtain ⟨imgData, hread, hloc⟩ := ih hothers' hrest hraw (lt_of_succ_lt_succ hfuel)
      refine ⟨imgData, hread, ?_⟩
      rw [idatData, filter_cons_of_neg (by simpa using htype)]
      exact hloc

theorem readHeader_eq {header : Header} (h : Has s.rawData offset header.bytes)
    (hoffset : offset + 13 ≤ 2 ^ 32) :
    ∃ raw', raw'.length = s.rawData.length ∧ Has raw' offset (be32 header.width).reverse ∧
      Has raw' (offset + 4) (be32 header.height).reverse ∧
      (∀ i, i < offset ∨ offset + 8 ≤ i → raw'[i]? = s.rawData[i]?) ∧
      readHeader s offset = .ok (if header.Supported then
        some { s with rawData := raw', ihdr := some offset } else none) := by
  obtain ⟨hw, hrest⟩ := has_append.1 h
  obtain ⟨hh, hrest⟩ := has_append.1 hrest
  obtain ⟨raw1, hswap1, hlen1, hw1, hsame1⟩ := swapBytes_eq hw (by omega)
  have hh1 : Has raw1 (offset + 4) (be32 header.height) :=
    Has.congr hh fun i _ => hsame1 _ (Or.inr (le_add_right _ _))
  obtain ⟨raw2, hswap2, hlen2, hh2, hsame2⟩ := swapBytes_eq hh1 (by omega)
  have hw2 : Has raw2 offset (be32 header.width).reverse :=
    Has.congr hw1 fun i hi => hsame2 _ (Or.inl (Nat.add_lt_add_left hi offset))
  have hsame : ∀ i, i < offset ∨ offset + 8 ≤ i → raw2[i]? = s.rawData[i]? := by
    intro i hi
    rw [hsame2 i (by omega), hsame1 i (by omega)]
  have hfields := Has.congr hrest fun i _ => hsame _ (Or.inr (le_add_right _ _))
  have hread (k : Nat) (b : UInt8) (hk : [header.bits, header.colorType, header.compression,
      header.filter, header.interlace][k]? = some b) (hlt : k < 5) :
      readAt raw2 (u32 (offset + (8 + k))) = .ok b := by
    rw [u32_eq (by omega), ← add_assoc]
    exact hfields.readAt hk
  refine ⟨raw2, hlen2.trans hlen1, hw2, hh2, hsame, ?_⟩
  rw [readHeader, bind_of_ok hswap1, u32_eq (show offset + 4 < 2 ^ 32 by omega), bind_of_ok hswap2,
    bind_of_ok (hread 2 _ rfl (by decide)), bind_of_ok (hread 3 _ rfl (by decide)),
    bind_of_ok (hread 1 _ rfl (by decide)), bind_of_ok (hread 0 _ rfl (by decide)),
    bind_of_ok (hread 4 _ rfl (by decide))]
  by_cases hs : header.Supported
  · obtain ⟨hcompression, hfilter, hcolorType, hbits, hinterlace⟩ := id hs
    rw [if_pos hs, hcompression, hfilter, hcolorType, hbits, hinterlace]
    rfl
  · rw [if_neg hs]
    split_ifs with hcompression hfilter hcolorType hbits hinterlace
    iterate 5 rfl
    exact absurd ⟨not_not.1 hcompression, not_not.1 hfilter, not_not.1 hcolorType, not_not.1 hbits,
      not_not.1 hinterlace⟩ hs

theorem readChunks_ihdr {length : Nat} {header : Header}
    (h : Has s.rawData offset (be32 length ++ (typeIHDR ++ header.bytes)))
    (hlength : length < 2 ^ 32) (hoffset : offset + 21 ≤ 2 ^ 32) (fuel : Nat) :
    ∃ raw', raw'.length = s.rawData.length ∧ Has raw' (offset + 8) (be32 header.width).reverse ∧
      Has raw' (offset + 12) (be32 header.height).reverse ∧
      (∀ i, offset + 16 ≤ i → raw'[i]? = s.rawData[i]?) ∧
      readChunks (fuel + 1) offset s = if header.Supported then
        readChunks fuel (u32 (offset + (12 + length)))
          { s with rawData := raw', ihdr := some (offset + 8) } else .ok none := by
  obtain ⟨hnum, hrest⟩ := has_append.1 h
  obtain ⟨htype, hbytes⟩ := has_append.1 hrest
  change Has s.rawData (offset + 4) typeIHDR at htype
  change Has s.rawData (offset + 8) header.bytes at hbytes
  obtain ⟨raw', hlen', hw, hh, hsame, hheader⟩ := readHeader_eq hbytes (by omega)
  refine ⟨raw', hlen', hw, hh, fun i hi => hsame i (Or.inr (by exact hi)), ?_⟩
  have hequal : bytesEqual s.rawData (u32 (offset + 4)) typeIHDR = .ok true := by
    rw [u32_eq (by omega)]
    exact bytesEqual_eq htype rfl (by rw [show typeIHDR.length = 4 from rfl]; omega)
  rw [readChunks, bind_of_ok (readBigEndian_eq hnum hlength (by omega))]
  rw [bind_of_ok hequal, if_pos rfl, u32_eq (show offset + 8 < 2 ^ 32 by omega)]
  refine (bind_of_ok hheader).trans ?_
  by_cases hs : header.Supported
  · rw [if_pos hs, if_pos hs]
  · rw [if_neg hs, if_neg hs]
    rfl

theorem gather_chunk {data idat : List UInt8} {size : Nat}
    (h : Located raw p data) (hraw : raw.length < 2 ^ 32) (hsize : idat.length + data.length ≤ size) :
    (range p.2).foldlM (fun idat i => do
      let b ← readAt raw (u32 (p.1 + i))
      if idat.length < size then return idat ++ [b] else .error .memory) idat =
      .ok (idat ++ data) := by
  obtain ⟨hlen, hdata⟩ := h
  obtain ⟨out, hloop, hout⟩ := foldlM_range (n := p.2)
    (f := fun idat i => do
      let b ← readAt raw (u32 (p.1 + i))
      if idat.length < size then return idat ++ [b] else .error .memory)
    (I := fun i l => l = idat ++ data.take i)
    (fun i hi l hl => by
      rw [hlen] at hi
      have hle := hdata.length_le (ne_nil_of_length_pos (zero_lt_of_lt hi))
      refine ⟨idat ++ data.take (i + 1), ?_, rfl⟩
      have hread : readAt raw (u32 (p.1 + i)) = .ok data[i] := by
        rw [u32_eq (by omega)]
        exact hdata.readAt (getElem?_eq_getElem hi)
      rw [bind_of_ok hread, hl, if_pos (by rw [length_append, length_take]; omega),
        take_add_one, getElem?_eq_getElem hi, append_assoc]
      rfl)
    (append_nil idat).symm
  rw [hloop, hout, hlen, take_length]

theorem gather_eq {size : Nat} (h : List.Forall₂ (Located raw) imgData datas) (hraw : raw.length < 2 ^ 32)
    (hsize : datas.flatten.length ≤ size) : gather raw size imgData = .ok datas.flatten := by
  suffices hloop : ∀ idat : List UInt8, idat.length + datas.flatten.length ≤ size →
      imgData.foldlM (fun idat p => (range p.2).foldlM (fun idat i => do
        let b ← readAt raw (u32 (p.1 + i))
        if idat.length < size then return idat ++ [b] else .error .memory) idat) idat =
        .ok (idat ++ datas.flatten) from
    hloop [] (by rw [length_nil]; omega)
  clear hsize
  induction h with
  | nil => exact fun idat _ => by rw [flatten_nil, append_nil]; rfl
  | @cons p data imgData datas hp _ ih =>
    intro idat hsize
    rw [flatten_cons, length_append] at hsize
    rw [foldlM_cons, bind_of_ok (gather_chunk hp hraw (by omega)),
      ih (idat ++ data) (by rw [length_append]; omega), flatten_cons, append_assoc]

theorem idatLength_eq (h : List.Forall₂ (Located raw) imgData datas) (n : Nat)
    (hlt : n + datas.flatten.length < 2 ^ 32) : imgData.foldl (fun length data => u32 (length + data.2)) n =
    n + datas.flatten.length := by
  induction h generalizing n with
  | nil => rfl
  | @cons p data imgData datas hp _ ih =>
    rw [flatten_cons, length_append] at hlt ⊢
    rw [foldl_cons, hp.1, u32_eq (by omega), ih _ (by omega), add_assoc]

variable {stride r c : Nat}

theorem readAt_returns (h : i < l.length) : ∃ b, readAt l i = .ok b :=
  ⟨l[i], readAt_eq (getElem?_eq_getElem h)⟩

theorem reconByte_returns (h : r * stride + c < recon.length) (filterType filtX reconX : UInt8) :
    ∃ b, reconByte recon stride r c filterType filtX reconX = .ok b := by
  have hA : ∃ a, reconA recon stride r c = .ok a := by
    unfold reconA
    split
    · exact readAt_returns (by omega)
    · exact ⟨0, rfl⟩
  have hrow : (r - 1) * stride ≤ r * stride := mul_le_mul_right stride (sub_le r 1)
  have hB : ∃ b, reconB recon stride r c = .ok b := by
    unfold reconB
    split
    · exact readAt_returns (by omega)
    · exact ⟨0, rfl⟩
  have hC : ∃ b, reconC recon stride r c = .ok b := by
    unfold reconC
    split
    · exact readAt_returns (by omega)
    · exact ⟨0, rfl⟩
  obtain ⟨a, ha⟩ := hA
  obtain ⟨b, hb⟩ := hB
  obtain ⟨d, hd⟩ := hC
  simp only [reconByte, ha, hb, hd]
  split_ifs
  all_goals exact ⟨_, rfl⟩

/-- The loops stand in front of byte `c` of row `r`, within an image of the given size. -/
structure Within (size stride r c : Nat) (s : ReconState) : Prop where
  length : s.recon.length = size
  reconIndex : s.reconIndex = r * stride + c
  index : s.index = r * (stride + 1) + 1 + c

theorem reconRow_returns {size : Nat} (hr : r < height) (hdata : height * (stride + 1) ≤ imageData.length)
    (hsize : height * stride ≤ size) (hlen : s.recon.length = size)
    (hindex : s.index = r * (stride + 1)) (hrecon : s.reconIndex = r * stride) :
    ∃ s', reconRow imageData stride s r = .ok s' ∧ s'.recon.length = size ∧
      s'.index = (r + 1) * (stride + 1) ∧ s'.reconIndex = (r + 1) * stride := by
  have hrow : (r + 1) * (stride + 1) ≤ height * (stride + 1) := mul_le_mul_right _ hr
  have hrow' : (r + 1) * stride ≤ height * stride := mul_le_mul_right _ hr
  rw [succ_mul r] at hrow hrow'
  obtain ⟨filterType, htype⟩ := readAt_returns (show s.index < imageData.length by omega)
  obtain ⟨⟨s', x⟩, hloop, hs'⟩ := foldlM_range (n := stride)
    (f := reconCell imageData stride r filterType) (I := fun c s => Within size stride r c s.1)
    (fun c hc s hs => by
      obtain ⟨filtX, hfilt⟩ := readAt_returns (show s.1.index < imageData.length by rw [hs.index]; omega)
      have hlt : r * stride + c < s.1.recon.length := by rw [hs.length]; omega
      obtain ⟨x, hx⟩ := reconByte_returns hlt filterType filtX s.2
      refine ⟨(⟨s.1.recon.set s.1.reconIndex x, s.1.reconIndex + 1, s.1.index + 1⟩, x), ?_, ?_, ?_, ?_⟩
      · rw [reconCell, bind_of_ok hfilt, bind_of_ok hx,
          bind_of_ok (writeAt_eq _ (by rw [hs.reconIndex]; exact hlt))]
        rfl
      · simpa using hs.length
      · rw [hs.reconIndex, add_assoc]
      · rw [hs.index, add_assoc])
    (s := ({ s with index := s.index + 1 }, 0)) ⟨hlen, hrecon, by rw [hindex]⟩
  refine ⟨s', ?_, hs'.length, ?_, ?_⟩
  · rw [reconRow, bind_of_ok htype]
    exact bind_of_ok hloop
  · rw [hs'.index, succ_mul r]
    omega
  · rw [hs'.reconIndex, succ_mul r]

theorem swapPixel_returns (h : i + 3 < recon.length) :
    ∃ recon', swapPixel recon i = .ok recon' ∧ recon'.length = recon.length := by
  obtain ⟨a, ha⟩ := readAt_returns h
  obtain ⟨b, hb⟩ := readAt_returns (show i + 2 < recon.length by omega)
  obtain ⟨g, hg⟩ := readAt_returns (show i + 1 < recon.length by omega)
  obtain ⟨r, hr⟩ := readAt_returns (show i + 0 < recon.length by omega)
  refine ⟨(((recon.set (i + 3) a).set (i + 2) r).set (i + 1) g).set (i + 0) b, ?_, by simp⟩
  rw [swapPixel, bind_of_ok ha, bind_of_ok hb, bind_of_ok hg, bind_of_ok hr,
    bind_of_ok (writeAt_eq _ h), bind_of_ok (writeAt_eq _ (by simp; omega)),
    bind_of_ok (writeAt_eq _ (by simp; omega)), writeAt_eq _ (by simp; omega)]

theorem reconstruct_returns (hdata : height * (4 * width + 1) ≤ imageData.length)
    (hsize : height * (4 * width) ≤ recon.length) :
    ∃ out, reconstruct imageData (4 * width) height recon = .ok out := by
  obtain ⟨s, hrows, hlen, -⟩ := foldlM_range (f := reconRow imageData (4 * width))
    (I := fun r s => s.recon.length = recon.length ∧ s.index = r * (4 * width + 1) ∧
      s.reconIndex = r * (4 * width))
    (fun r hr s hs => reconRow_returns hr hdata hsize hs.1 hs.2.1 hs.2.2)
    (s := ⟨recon, 0, 0⟩) ⟨rfl, by simp, by simp⟩
  have hmul : height * (4 * width) = 4 * (height * width) := mul_left_comm ..
  obtain ⟨out, hswap, -⟩ := foldlM_range (n := (height * (4 * width) + 3) / 4)
    (f := fun recon i => swapPixel recon (4 * i)) (I := fun _ l => l.length = recon.length)
    (fun i hi l hl => by
      obtain ⟨l', hl', hlen'⟩ := swapPixel_returns (show 4 * i + 3 < l.length by omega)
      exact ⟨l', hl', hlen'.trans hl⟩)
    hlen
  exact ⟨out, by rw [reconstruct, bind_of_ok hrows, hswap]⟩

theorem convertRaw_foreign (hshort : ¬ raw <+: signature)
    (hdiffers : ¬ signature <+: raw) (fuel : Nat) (garbage : Nat → UInt8) :
    convertRaw fuel garbage raw = .ok none := by
  have hequal : bytesEqual raw 0 signature = .ok false := bytesEqual_false hshort hdiffers (by decide)
  rw [convertRaw, bind_of_ok hequal]
  rfl

theorem bytesEqual_signature (h : Has raw 0 signature) : bytesEqual raw 0 signature = .ok true :=
  bytesEqual_eq h rfl (by decide)

theorem convertRaw_unsupported {raw tail : List UInt8} {length : Nat} {header : Header}
    (hlength : length < 2 ^ 32)
    (hfile : raw = signature ++ (be32 length ++ (typeIHDR ++ (header.bytes ++ tail))))
    (hrejected : ¬ header.Supported) {fuel : Nat} (hfuel : raw.length ≤ fuel)
    (garbage : Nat → UInt8) : convertRaw fuel garbage raw = .ok none := by
  have hhas := has_self raw
  nth_rewrite 2 [hfile] at hhas
  obtain ⟨hsig, hrest⟩ := has_append.1 hhas
  have hchunk : Has raw 8 (be32 length ++ (typeIHDR ++ header.bytes)) := by
    rw [← append_assoc typeIHDR, ← append_assoc (be32 length)] at hrest
    exact (has_append.1 hrest).1
  have hpos : fuel ≠ 0 := by
    have := hchunk.length_le (by simp [be32])
    omega
  obtain ⟨fuel, rfl⟩ := exists_eq_add_one_of_ne_zero hpos
  obtain ⟨raw', -, -, -, -, hread⟩ := readChunks_ihdr (s := ⟨raw, none, []⟩) hchunk hlength (by decide) fuel
  rw [if_neg hrejected] at hread
  rw [convertRaw, bind_of_ok (bytesEqual_signature hsig)]
  exact bind_of_ok hread

theorem length_le_flatMap_bytes (chunks : List Chunk) :
    chunks.length ≤ (chunks.flatMap Chunk.bytes).length := by
  induction chunks with
  | nil => exact le_refl _
  | cons c chunks ih =>
    rw [flatMap_cons, length_append, c.length_bytes, length_cons]
    omega

theorem length_idatData_le (chunks : List Chunk) :
    (idatData chunks).flatten.length ≤ (chunks.flatMap Chunk.bytes).length := by
  induction chunks with
  | nil => exact le_refl _
  | cons c chunks ih =>
    rw [flatMap_cons, length_append, c.length_bytes]
    by_cases hc : c.type = typeIDAT
    · rw [idatData, filter_cons_of_pos (by simpa using hc), map_cons, flatten_cons, length_append, ← idatData]
      omega
    · rw [idatData, filter_cons_of_neg (by simpa using hc), ← idatData]
      omega

theorem reconstruct_image_returns (henough : height * (4 * width + 1) ≤ out.length)
    (hfits : 4 * width * height < 2 ^ 32) (hrecon : recon.length = imageBytes width height) : ∃ buffer,
    reconstruct out (u32 (width * bytesPerPixel)) height recon = .ok buffer := by
  rcases Nat.eq_zero_or_pos height with rfl | hh
  · -- no row is read, whatever the width
    refine ⟨recon, ?_⟩
    rw [reconstruct, zero_mul]
    rfl
  have hw : 4 * width ≤ 4 * width * height := Nat.le_mul_of_pos_right _ hh
  have hstride : u32 (width * bytesPerPixel) = 4 * width := by
    rw [bytesPerPixel, mul_comm, u32_eq (by omega)]
  rw [hstride]
  refine reconstruct_returns henough ?_
  rcases Nat.eq_zero_or_pos width with rfl | hwpos
  · rw [mul_zero]
    exact zero_le _
  have hmul : width * height < 2 ^ 30 := by
    rw [mul_assoc] at hfits
    omega
  have hhle : height ≤ width * height := Nat.le_mul_of_pos_left _ hwpos
  rw [hrecon, imageBytes, if_pos ⟨hwpos, by omega, hh, by omega⟩,
    u32_eq (show width * height < 2 ^ 32 by omega), u32_eq (by omega), mul_left_comm,
    mul_comm height]

theorem convertChunks_returns {header : Header} (hraw : raw.length < 2 ^ 32)
    (hdatas : List.Forall₂ (Located raw) imgData datas) (hsum : datas.flatten.length < 2 ^ 32)
    (hwidth : Has raw 16 (be32 header.width).reverse) (hheight : Has raw 20 (be32 header.height).reverse)
    (hdecompress : decompress datas.flatten = .ok (some out))
    (henough : header.height * (4 * header.width + 1) ≤ out.length)
    (hfits : 4 * header.width * header.height < 2 ^ 32) (garbage : Nat → UInt8) : ∃ image, convertChunks
    garbage ⟨raw, some 16, imgData⟩ = .ok image := by
  have hgather : gather raw (imgData.foldl (fun length data => u32 (length + data.2)) 0) imgData =
      .ok datas.flatten := by
    rw [idatLength_eq hdatas 0 (by omega), zero_add]
    exact gather_eq hdatas hraw (le_refl _)
  obtain ⟨buffer, hbuffer⟩ := reconstruct_image_returns henough hfits
    (show ((range (imageBytes header.width header.height)).map garbage).length = _ by simp)
  refine ⟨⟨header.width, header.height, buffer⟩, ?_⟩
  rw [convertChunks]
  rw [bind_of_ok hgather, bind_of_ok hdecompress]
  dsimp only
  rw [bind_of_ok (readLittleEndian_eq hwidth header.width_lt (by decide)),
    u32_eq (show 16 + 4 < 2 ^ 32 by decide),
    bind_of_ok (readLittleEndian_eq hheight header.height_lt (by decide)), bind_of_ok hbuffer]
  rfl

theorem readChunks_image {raw tail : List UInt8} {length : Nat} {header : Header} {ihdr : Chunk}
    (hlength : length < 2 ^ 32) (hraw : raw.length < 2 ^ 32)
    (hfile : raw = signature ++ (ihdr.bytes ++ (chunks.flatMap Chunk.bytes ++
      (be32 length ++ (typeIEND ++ tail)))))
    (hfirst : ihdr.type = typeIHDR) (hdata : ihdr.data = header.bytes) (hsupported : header.Supported)
    (hothers : ∀ c ∈ chunks, c.type ≠ typeIHDR ∧ c.type ≠ typeIEND) {fuel : Nat}
    (hfuel : chunks.length + 1 < fuel) :
    ∃ raw' imgData, readChunks fuel 8 ⟨raw, none, []⟩ = .ok (some ⟨raw', some 16, imgData⟩) ∧
      raw'.length = raw.length ∧ Has raw' 16 (be32 header.width).reverse ∧ Has raw' 20
      (be32 header.height).reverse ∧ List.Forall₂ (Located raw') imgData (idatData chunks) := by
  have hhas := has_self raw
  nth_rewrite 2 [hfile] at hhas
  obtain ⟨-, hrest⟩ := has_append.1 hhas
  obtain ⟨hihdr, hrest⟩ := has_append.1 hrest
  change Has raw 8 ihdr.bytes at hihdr
  have hlen : ihdr.data.length = 13 := by rw [hdata]; rfl
  rw [ihdr.length_bytes, hlen] at hrest
  have hchunk : Has raw 8 (be32 13 ++ (typeIHDR ++ header.bytes)) := by
    rw [Chunk.bytes, hlen, hfirst, hdata, ← append_assoc typeIHDR, ← append_assoc (be32 13)] at hihdr
    exact (has_append.1 hihdr).1
  obtain _ | fuel := fuel
  · omega
  obtain ⟨raw', hlen', hw, hh, hsame, hread⟩ := readChunks_ihdr (s := ⟨raw, none, []⟩) hchunk
    (by decide) (by decide) fuel
  rw [if_pos hsupported] at hread
  have hrest' : Has raw' 33 (chunks.flatMap Chunk.bytes ++ (be32 length ++ typeIEND)) := by
    rw [← append_assoc (be32 length), ← append_assoc] at hrest
    refine Has.congr (has_append.1 hrest).1 fun i _ => hsame _ ?_
    omega
  obtain ⟨imgData, hloop, hdatas⟩ := readChunks_chunks (s := ⟨raw', some 16, []⟩) hlength hothers
    hrest' (hlen' ▸ hraw) (lt_of_succ_lt_succ hfuel)
  exact ⟨raw', imgData, hread.trans hloop, hlen', hw, hh, hdatas⟩

/-- A file of one pixel, its row stored without compression. -/
def pixelFile : List UInt8 :=
  signature ++ (be32 13 ++ (typeIHDR ++ ([0, 0, 0, 1, 0, 0, 0, 1, 8, 6, 0, 0, 0] ++ [0, 0, 0, 0])) ++
    ((be32 16 ++ (typeIDAT ++ ([0x78, 1, 1, 5, 0, 250, 255, 0, 1, 2, 3, 4, 0, 0, 0, 0] ++
      [0, 0, 0, 0])) ++ []) ++ (be32 0 ++ (typeIEND ++ []))))

end HeisenKernel.Imaging
