import HeisenKernel.Convert
import HeisenKernel.CString

/-!
# The paths of the virtual filesystem

`VFSManager` (`system/vfs/vfsmanager.cpp`) takes the part of a path in front of the first `:` for
the number of a mounted filesystem, or for the boot partition, and forwards a request with the rest
of the path.
-/

namespace HeisenKernel

open Convert List CString

/-- `isalpha` (`common/string.h:12`). -/
def isAlpha (c : UInt8) : Bool := 97 ≤ (c ||| 32) ∧ (c ||| 32) ≤ 122

/-- `VFSManager` (`vfsmanager.h:12`): the number of its filesystems, and `-1` or the number of the one that the
system was started from. -/
structure VfsManager where
  filesystems : Nat
  bootPartitionID : Int
deriving Repr, DecidableEq

/-- The requests with a path that a filesystem can get (`vfsmanager.cpp:123`). -/
inductive Request where
  | directoryList
  | getFileSize
  | readFile
  | writeFile
  | fileExists
  | directoryExists
  | createFile
  | createDirectory
deriving Repr, DecidableEq

/-- The requests that are answered without the filesystem when the path is only a disk, such as
`0:\`. -/
def Request.answersDisk : Request → Bool
  | .directoryExists | .createFile | .createDirectory => true
  | _ => false

/-- What becomes of a request: a filesystem gets it with the path from an offset on, it is answered with
true, or it fails. -/
inductive Answer where
  | forwarded (filesystem offset : Nat)
  | itself
  | refused
deriving Repr, DecidableEq

namespace VfsManager

/-- The identifier (`vfsmanager.cpp:25`), with what lies behind its copy. -/
def identify (idStr : List UInt8) (idLength : Nat) (m : VfsManager) : Exec (Int × Nat) :=
  match idStr with
  | [] => .error .memory
  | c :: rest =>
    if isAlpha c then
      if c = 98 ∨ c = 66 then .ok (m.bootPartitionID, idLength % 256) else .ok (-1, 0)
    else do
      let idValue ← stringToInt (c :: rest)
      return (idValue, idLength % 256)

/-- `VFSManager::ExtractDiskNumber` (`vfsmanager.cpp:14`), with the size of the identifier in the `uint8_t` of
the callers. -/
def extractDiskNumber (path behind : List UInt8) (m : VfsManager) : Exec (Int × Nat) :=
  if path.contains 58 ∧ path.contains 92 then
    match CString.indexOf path 58 0 with
    | none => .error .memory
    | some idLength => m.identify (path.take idLength ++ behind) idLength
  else .ok (-1, 0)

/-- `List::GetAt` (`common/list.h:207`): the position of the item that is read. The loop does nothing for a
negative index. -/
def getAt (index : Int) (m : VfsManager) : Exec Nat :=
  if index.toNat < m.filesystems then .ok index.toNat else .error .memory

/-- `VFSManager::ReadFile` (`vfsmanager.cpp:143`) and the other requests. -/
def forward (request : Request) (path behind : List UInt8) (m : VfsManager) : Exec Answer := do
  let disk ← m.extractDiskNumber path behind
  if disk.1 ≠ -1 ∧ disk.1 < m.filesystems then
    if request.answersDisk ∧ path.length = disk.2 + 2 then return .itself
    else
      let filesystem ← m.getAt disk.1
      return .forwarded filesystem (disk.2 + 2)
  else return .refused

/-- The identifiers of filesystem `k`: its number in decimal digits, or the letter of the boot partition. -/
def Names (m : VfsManager) (id : List UInt8) (k : Nat) : Prop :=
  k < m.filesystems ∧ ((id ≠ [] ∧ (∀ c ∈ id, isDigit c) ∧ valueOf id = k) ∨
    ((id = [98] ∨ id = [66]) ∧ m.bootPartitionID = k))

/-- The request goes to filesystem `k` with the path `r` exactly when the path is `d:\r` with an identifier
`d` of `k`, and the rest of the path that is forwarded begins in the path. -/
def ForwardsRight (m : VfsManager) (request : Request) (path behind : List UInt8) : Prop :=
  ∃ answer, m.forward request path behind = .ok answer ∧
    (∀ k r, (∃ offset, answer = .forwarded k offset ∧ path.drop offset = r) ↔
      ∃ id, path = id ++ 58 :: 92 :: r ∧ m.Names id k) ∧
    ∀ k offset, answer = .forwarded k offset → offset ≤ path.length

/-- What an identifier stands for in the code, by the text that begins with it. -/
inductive Denotes (m : VfsManager) : List UInt8 → Int → Prop
  | boot {c : UInt8} {rest : List UInt8} : c = 98 ∨ c = 66 → Denotes m (c :: rest) m.bootPartitionID
  | letter {c : UInt8} {rest : List UInt8} : isAlpha c → ¬(c = 98 ∨ c = 66) → Denotes m (c :: rest) (-1)
  | number {c : UInt8} {rest : List UInt8} {v : Int} : ¬isAlpha c → Spells (c :: rest) v →
      Denotes m (c :: rest) v

/-- The identifier of the path stands for `k` where it is one of filesystem `k`, and for no filesystem where
it is none. A negative number is as good as 0, except for -1. -/
def Routable (m : VfsManager) (request : Request) (path behind : List UInt8) : Prop :=
  ∀ id tail, path = id ++ 58 :: tail → 58 ∉ id → 92 ∈ path → ∃ v, m.Denotes (id ++ behind) v ∧
    (∀ k r, tail = 92 :: r → m.Names id k →
      (v = k ∨ (k = 0 ∧ v < -1)) ∧ id.length < 256 ∧ (request.answersDisk → r ≠ [])) ∧
    ((∀ k r, tail = 92 :: r → ¬m.Names id k) →
      v = -1 ∨ m.filesystems ≤ v ∨ (request.answersDisk ∧ path.length = id.length % 256 + 2))

variable {m : VfsManager} {request : Request} {path behind id tail : List UInt8} {k : Nat} {v : Int}

theorem denotes_of_identify (h : m.identify text n = .ok disk) :
    m.Denotes text disk.1 ∧ (disk.1 = -1 ∨ disk.2 = n % 256) := by
  obtain _ | ⟨c, rest⟩ := text
  · cases h
  rw [identify] at h
  split at h
  · next hc =>
    split at h
    · next hb =>
      cases h
      exact ⟨.boot hb, .inr rfl⟩
    · next hb =>
      cases h
      exact ⟨.letter hc hb, .inl rfl⟩
  · next hc =>
    obtain ⟨v, hv, hdisk⟩ := bind_eq_ok.1 h
    cases hdisk
    exact ⟨.number hc (stringToInt_eq_ok_iff.1 hv), .inr rfl⟩

theorem Denotes.identify_eq (h : m.Denotes text v) (n : Nat) : ∃ size,
    m.identify text n = .ok (v, size) ∧ (v = -1 ∨ size = n % 256) := by
  cases h with
  | boot hb =>
    refine ⟨_, ?_, .inr rfl⟩
    rw [identify, if_pos (hb.elim (fun h => by rw [h]; rfl) fun h => by rw [h]; rfl), if_pos hb]
  | letter hc hb =>
    refine ⟨0, ?_, .inl rfl⟩
    rw [identify, if_pos hc, if_neg hb]
  | number hc hv =>
    refine ⟨_, ?_, .inr rfl⟩
    rw [identify, if_neg hc, bind_of_ok (stringToInt_eq_ok_iff.2 hv)]
    rfl

theorem indexOf_colon (hid : 58 ∉ id) (tail : List UInt8) :
    CString.indexOf (id ++ 58 :: tail) 58 0 = some id.length := by
  rw [CString.indexOf, indexOfFrom_append hid, indexOfFrom, if_pos rfl, if_pos rfl, zero_add]

theorem extractDiskNumber_eq (m : VfsManager) (behind : List UInt8) (hpath : path = id ++ 58 :: tail)
    (hid : 58 ∉ id) (hsep : 92 ∈ path) :
    m.extractDiskNumber path behind = m.identify (id ++ behind) id.length := by
  have hcolon : 58 ∈ path := by
    rw [hpath]
    exact mem_append_right _ mem_cons_self
  have hindex : CString.indexOf path 58 0 = some id.length := by
    rw [hpath, indexOf_colon hid tail]
  have htake : path.take id.length = id := by
    rw [hpath, take_left]
  rw [extractDiskNumber, if_pos ⟨contains_iff_mem.2 hcolon, contains_iff_mem.2 hsep⟩, hindex]
  dsimp only
  rw [htake]

theorem colon_notMem_of_names (h : m.Names id k) : 58 ∉ id := by
  rcases h.2 with ⟨-, hdigits, -⟩ | ⟨rfl | rfl, -⟩
  · exact fun hmem => absurd (hdigits _ hmem) (by decide)
  · decide
  · decide

theorem colon_unique (hid : 58 ∉ id) (hid' : 58 ∉ id')
    (h : id ++ 58 :: tail = id' ++ 58 :: tail') : id = id' ∧ tail = tail' := by
  have hindex := indexOf_colon hid tail
  rw [h, indexOf_colon hid' tail'] at hindex
  obtain ⟨hl, hr⟩ := append_inj h (Option.some.inj hindex).symm
  exact ⟨hl, (List.cons.inj hr).2⟩

theorem Names.unique (h : m.Names id k) (h' : m.Names id k') : k = k' := by
  have hletter : ∀ {id : List UInt8}, (∀ c ∈ id, isDigit c) → ¬(id = [98] ∨ id = [66]) := by
    rintro _ hdigits (rfl | rfl)
    · exact absurd (hdigits 98 mem_cons_self) (by decide)
    · exact absurd (hdigits 66 mem_cons_self) (by decide)
  rcases h.2 with ⟨-, hdigits, rfl⟩ | ⟨hid, hk⟩
  · rcases h'.2 with ⟨-, -, rfl⟩ | ⟨hid', -⟩
    · rfl
    · exact absurd hid' (hletter hdigits)
  · rcases h'.2 with ⟨-, hdigits', -⟩ | ⟨-, hk'⟩
    · exact absurd hid (hletter hdigits')
    · omega

theorem forward_of_extract (request : Request) (id : List UInt8)
    (h : m.extractDiskNumber path behind = .ok disk) (hsize : disk.1 = -1 ∨ disk.2 = id.length % 256) :
    m.forward request path behind =
      if disk.1 = -1 ∨ m.filesystems ≤ disk.1 then .ok .refused
      else if request.answersDisk ∧ path.length = id.length % 256 + 2 then .ok .itself
      else if disk.1.toNat < m.filesystems then
        .ok (.forwarded disk.1.toNat (id.length % 256 + 2))
      else .error .memory := by
  rw [forward, bind_of_ok h]
  by_cases hnone : disk.1 = -1 ∨ m.filesystems ≤ disk.1
  · rw [if_pos hnone, if_neg (by omega)]
    rfl
  · rw [if_neg hnone, if_pos (by omega), hsize.resolve_left fun h => hnone (.inl h)]
    split
    · rfl
    · rw [getAt]
      split <;> rfl

theorem eq_of_forwarded [Decidable root] {n size offset : Nat}
    (h : (if v = -1 ∨ n ≤ v then .ok .refused
      else if root then .ok .itself
      else if v.toNat < n then .ok (.forwarded v.toNat size)
      else .error .memory : Exec Answer) = .ok (.forwarded k offset)) :
    ¬(v = -1 ∨ n ≤ v) ∧ ¬root ∧ v.toNat = k ∧ size = offset := by
  split at h
  · cases h
  next hvalue =>
  split at h
  · cases h
  next hroot =>
  split at h
  · exact ⟨hvalue, hroot, Answer.forwarded.inj (Except.ok.inj h)⟩
  · cases h

theorem forwardsRight_of_not (h : m.forward request path behind = .ok answer)
    (hanswer : ∀ k offset, answer ≠ .forwarded k offset)
    (hnames : ∀ id r k, path = id ++ 58 :: 92 :: r → ¬m.Names id k) :
    m.ForwardsRight request path behind := by
  refine ⟨answer, h, fun k r => ⟨?_, ?_⟩, fun k offset h => absurd h (hanswer k offset)⟩
  · rintro ⟨offset, hforwarded, -⟩
    exact absurd hforwarded (hanswer k offset)
  · rintro ⟨id, hpath, hid⟩
    exact absurd hid (hnames id r k hpath)

theorem forwardsRight_of_plain (h : ¬(58 ∈ path ∧ 92 ∈ path)) : m.ForwardsRight request path behind := by
  have hextract : m.extractDiskNumber path behind = .ok (-1, 0) := by
    rw [extractDiskNumber, if_neg fun hc => h ⟨contains_iff_mem.1 hc.1, contains_iff_mem.1 hc.2⟩]
  have hforward : m.forward request path behind = .ok .refused := by
    rw [forward_of_extract request [] hextract (.inl rfl), if_pos (.inl rfl)]
  refine forwardsRight_of_not hforward (fun _ _ => nofun) ?_
  · rintro id r k rfl -
    refine h ⟨mem_append_right _ mem_cons_self, ?_⟩
    exact mem_append_right _ (mem_cons_of_mem _ mem_cons_self)

theorem forwardsRight_of_names (hpath : path = id ++ 58 :: 92 :: r) (hid : m.Names id k)
    (h : m.forward request path behind = .ok (.forwarded k (id.length + 2))) :
    m.ForwardsRight request path behind := by
  have hdrop : path.drop (id.length + 2) = r := by
    rw [hpath, ← drop_drop, drop_left]
    rfl
  have hlength : id.length + 2 ≤ path.length := by
    rw [hpath, length_append, length_cons, length_cons]
    omega
  refine ⟨_, h, fun k' r' => ⟨?_, ?_⟩, ?_⟩
  · rintro ⟨offset, hforwarded, hr⟩
    cases hforwarded
    rw [hdrop] at hr
    exact ⟨id, hr ▸ hpath, hid⟩
  · rintro ⟨id', hpath', hid'⟩
    obtain ⟨rfl, htail⟩ := colon_unique (colon_notMem_of_names hid) (colon_notMem_of_names hid')
      (hpath.symm.trans hpath')
    rw [hid'.unique hid]
    exact ⟨_, rfl, hdrop.trans (List.cons.inj htail).2⟩
  · rintro k' offset hforwarded
    cases hforwarded
    exact hlength

theorem forwardsRight_of_routable (h : m.Routable request path behind) :
    m.ForwardsRight request path behind := by
  rcases Classical.em (58 ∈ path ∧ 92 ∈ path) with hplain | hplain
  case inr => exact forwardsRight_of_plain hplain
  obtain ⟨id, tail, hpath, hid⟩ := eq_append_cons_of_mem hplain.1
  obtain ⟨v, hdenotes, hnamed, hother⟩ := h id tail hpath hid hplain.2
  obtain ⟨size, hidentify, hsize⟩ := hdenotes.identify_eq id.length
  rw [← extractDiskNumber_eq m behind hpath hid hplain.2] at hidentify
  have hforward := forward_of_extract request id hidentify hsize
  by_cases hnames : ∃ k r, tail = 92 :: r ∧ m.Names id k
  · obtain ⟨k, r, rfl, hk⟩ := hnames
    obtain ⟨hv, hlen, hdisk⟩ := hnamed k r rfl hk
    have hin := hk.1
    have hr : ¬(request.answersDisk ∧ path.length = id.length % 256 + 2) := by
      rintro ⟨hanswers, hlength⟩
      refine hdisk hanswers (length_eq_zero_iff.1 ?_)
      rw [hpath, length_append, length_cons, length_cons] at hlength
      omega
    rw [if_neg (by omega), if_neg hr, if_pos (by omega), Nat.mod_eq_of_lt hlen,
      show v.toNat = k by omega] at hforward
    exact forwardsRight_of_names hpath hk hforward
  · have hnone : ∀ id' r k, path = id' ++ 58 :: 92 :: r → ¬m.Names id' k := by
      intro id' r k hpath' hk
      obtain ⟨rfl, rfl⟩ := colon_unique hid (colon_notMem_of_names hk) (hpath.symm.trans hpath')
      exact hnames ⟨k, r, rfl, hk⟩
    have hcases := hother fun k r htail hk => hnames ⟨k, r, htail, hk⟩
    by_cases hrefused : v = -1 ∨ m.filesystems ≤ v
    · rw [if_pos hrefused] at hforward
      exact forwardsRight_of_not hforward (fun _ _ => nofun) hnone
    · rw [if_neg hrefused, if_pos ((or_assoc.2 hcases).resolve_left hrefused)] at hforward
      exact forwardsRight_of_not hforward (fun _ _ => nofun) hnone

theorem routable_of_forwardsRight (h : m.ForwardsRight request path behind) :
    m.Routable request path behind := by
  intro id tail hpath hid hsep
  obtain ⟨answer, hanswer, hroute, hinside⟩ := h
  obtain ⟨disk, hdisk, -⟩ := bind_eq_ok.1 hanswer
  have hidentify := hdisk
  rw [extractDiskNumber_eq m behind hpath hid hsep] at hidentify
  obtain ⟨hdenotes, hsize⟩ := denotes_of_identify hidentify
  rw [forward_of_extract request id hdisk hsize] at hanswer
  refine ⟨disk.1, hdenotes, ?_, ?_⟩
  · rintro k r rfl hk
    obtain ⟨offset, rfl, hdrop⟩ := (hroute k r).2 ⟨id, hpath, hk⟩
    have hlength : path.length = id.length + (r.length + 2) := by
      rw [hpath, length_append]
      rfl
    have hr : path.length - offset = r.length := by
      rw [← hdrop, length_drop]
    obtain ⟨hvalue, hroot, rfl, rfl⟩ := eq_of_forwarded hanswer
    have hlen : id.length < 256 := by omega
    refine ⟨by omega, hlen, ?_⟩
    rintro hanswers rfl
    exact hroot ⟨hanswers, by rw [length_nil] at hlength; omega⟩
  · intro hnone
    split at hanswer
    · next hvalue => exact hvalue.imp_right .inl
    split at hanswer
    · next hroot => exact .inr (.inr hroot)
    split at hanswer
    · obtain rfl := Except.ok.inj hanswer
      obtain ⟨id', hpath', hk⟩ := (hroute _ _).1 ⟨_, rfl, rfl⟩
      obtain ⟨rfl, rfl⟩ := colon_unique hid (colon_notMem_of_names hk) (hpath.symm.trans hpath')
      exact absurd hk (hnone _ _ rfl)
    · cases hanswer

/-- For every request, path, number of filesystems and boot partition, and whatever lies behind the copy of
the identifier: the path is forwarded exactly to the filesystem that it names, and from inside the path on, if
and only if its identifier stands for that filesystem in the code, and for no filesystem where the path names
none. -/
theorem forwardsRight_iff (m : VfsManager) (request : Request) (path behind : List UInt8) :
    m.ForwardsRight request path behind ↔ m.Routable request path behind :=
  ⟨routable_of_forwardsRight, forwardsRight_of_routable⟩

/-- `0x:\a` and `-7:\a` go to filesystem 0 as `a`. -/
theorem forward_garbage : ((VfsManager.mk 1 0).forward .readFile [48, 120, 58, 92, 97] [0]).toOption = some
    (.forwarded 0 4) ∧ ((VfsManager.mk 1 0).forward .readFile [45, 55, 58, 92, 97] [0]).toOption = some
    (.forwarded 0 4) ∧ ¬(VfsManager.mk 1 0).ForwardsRight .readFile [48, 120, 58, 92, 97] [0] := by
  have hforward : ((VfsManager.mk 1 0).forward .readFile [48, 120, 58, 92, 97] [0]).toOption =
      some (.forwarded 0 4) := by decide +kernel
  refine ⟨hforward, by decide +kernel, ?_⟩
  rintro ⟨answer, hanswer, hroute, -⟩
  rw [hanswer] at hforward
  obtain ⟨id, hpath, hk⟩ := (hroute 0 [97]).1 ⟨4, Option.some.inj hforward, rfl⟩
  have hpath' : [48, 120] ++ 58 :: [92, 97] = id ++ 58 :: 92 :: [97] := hpath
  have hsplit := (colon_unique (by decide) (colon_notMem_of_names hk) hpath').1
  rcases hk.2 with ⟨-, hdigits, -⟩ | ⟨hletter, -⟩
  · rw [← hsplit] at hdigits
    exact absurd (hdigits 120 (by decide)) (by decide)
  · rw [← hsplit] at hletter
    exact absurd hletter (by decide)

end VfsManager

end HeisenKernel
