import Retorrent.Bencode.RoundTrip
import Retorrent.Dht.Protocol

/-!
# Reading messages back

`deserialize` after `serialize`. The kind of a response is told from its keys, and
empty fields are not written, so that one response is read as another.
-/

namespace Retorrent

open Rust

/-- An address without flow information or scope, as every compact address is. -/
def SocketAddr.Plain : SocketAddr → Prop
  | v4 _ => True
  | v6 addr => addr.flowinfo = 0 ∧ addr.scopeId = 0

namespace Dht

open BencodeValue (byteString integer list dict Fits FitsMap fits_byteString fits_list fits_dict
  fitsMap_nil fitsMap_ofEntries)

theorem length_octetsV4 (addr : SocketAddrV4) : (octetsV4 addr).length = 6 := by
  rw [octetsV4, List.length_append, BigEndian.length_bytes, BigEndian.length_bytes]

theorem length_octetsV6 (addr : SocketAddrV6) : (octetsV6 addr).length = 18 := by
  rw [octetsV6, List.length_append, BigEndian.length_bytes, BigEndian.length_bytes]

/-- The address and the port are read back from where they were written. -/
theorem compact_bytes {n ip : ℕ} (hip : ip < 256 ^ n) (port : UInt16) :
    compactIp n (BigEndian.bytes n ip ++ BigEndian.bytes 2 port.toNat) = ip ∧
    compactPort n (BigEndian.bytes n ip ++ BigEndian.bytes 2 port.toNat) = port := by
  have hlen := BigEndian.length_bytes n ip
  have hport : BigEndian.value (BigEndian.bytes 2 port.toNat) = port.toNat :=
    BigEndian.value_bytes_of_lt port.toNat_lt
  refine ⟨?_, ?_⟩
  · rw [compactIp, List.take_left' hlen, BigEndian.value_bytes_of_lt hip]
  · rw [compactPort, List.drop_left' hlen, List.take_of_length_le (BigEndian.length_bytes 2 _).le,
      hport, UInt16.ofNat_toNat]

theorem ofOctetsV4_octetsV4 (addr : SocketAddrV4) : ofOctetsV4 (octetsV4 addr) = addr := by
  have hlt : addr.ip.toNat < 256 ^ 4 := addr.ip.toNat_lt
  obtain ⟨hip, hport⟩ := compact_bytes hlt addr.port
  rw [ofOctetsV4, octetsV4, hip, hport, UInt32.ofNat_toNat]

theorem ofOctetsV6_octetsV6 {addr : SocketAddrV6} (h : (SocketAddr.v6 addr).Plain) :
    ofOctetsV6 (octetsV6 addr) = addr := by
  obtain ⟨ip, port, flowinfo, scopeId⟩ := addr
  obtain ⟨rfl, rfl⟩ := h
  have hlt : ip.toNat < 256 ^ 16 := ip.isLt
  obtain ⟨hip, hport⟩ := compact_bytes hlt port
  rw [ofOctetsV6, octetsV6, hip, hport, BitVec.ofNat_toNat, BitVec.setWidth_eq]

/-- What stands behind an address does not matter. -/
theorem compact_append {n : ℕ} {data : List UInt8} (h : n + 2 ≤ data.length) (rest : List UInt8) :
    compactIp n (data ++ rest) = compactIp n data ∧
      compactPort n (data ++ rest) = compactPort n data := by
  constructor
  · rw [compactIp, compactIp, List.take_append_of_le_length (by omega)]
  · rw [compactPort, compactPort, List.drop_append_of_le_length (by omega),
      List.take_append_of_le_length (by rw [List.length_drop]; omega)]

theorem ofOctetsV4_append (addr : SocketAddrV4) (rest : List UInt8) :
    ofOctetsV4 (octetsV4 addr ++ rest) = addr := by
  obtain ⟨hip, hport⟩ := compact_append (length_octetsV4 addr).ge rest
  rw [ofOctetsV4, hip, hport]
  exact ofOctetsV4_octetsV4 addr

theorem ofOctetsV6_append (addr : SocketAddrV6) (rest : List UInt8) :
    ofOctetsV6 (octetsV6 addr ++ rest) = ofOctetsV6 (octetsV6 addr) := by
  obtain ⟨hip, hport⟩ := compact_append (length_octetsV6 addr).ge rest
  rw [ofOctetsV6, hip, hport, ofOctetsV6]

/-- Records of one width are read back one by one. -/
theorem compactNodes_flatMap {α β : Type} {size : ℕ} {f : α → List UInt8}
    {parse : List UInt8 → Option β} {g : α → Option β} (hsize : 0 < size)
    (hlen : ∀ a, (f a).length = size) (hparse : ∀ a rest, parse (f a ++ rest) = g a)
    (l : List α) : compactNodes size parse (l.flatMap f) = l.filterMap g := by
  induction l with
  | nil => simp [compactNodes]
  | cons a l ih =>
    have hcount : (f a ++ l.flatMap f).length / size = (l.flatMap f).length / size + 1 := by
      rw [List.length_append, hlen, Nat.add_comm, Nat.add_div_right _ hsize]
    have htail (k : ℕ) : (f a ++ l.flatMap f).drop (size * (k + 1)) =
        (l.flatMap f).drop (size * k) := by
      rw [Nat.mul_succ, Nat.add_comm, ← List.drop_drop, List.drop_left' (hlen a)]
    have hrest : (List.range ((l.flatMap f).length / size)).filterMap
        ((fun k => parse ((f a ++ l.flatMap f).drop (size * k))) ∘ Nat.succ) = l.filterMap g := by
      rw [← ih, compactNodes]
      congr 1
      funext k
      rw [Function.comp_apply, Nat.succ_eq_add_one, htail]
    rw [List.flatMap_cons, compactNodes, hcount, List.range_succ_eq_map, List.filterMap_cons,
      List.filterMap_map, Nat.mul_zero, List.drop_zero, hparse, List.filterMap_cons, hrest]

/-- A compact address is read back. -/
theorem parseCompactPeerAddr_build {addr : SocketAddr} (h : addr.Plain) :
    parseCompactPeerAddr (buildCompactPeerAddr addr) = some addr := by
  cases addr with
  | v4 addr =>
    rw [buildCompactPeerAddr, parseCompactPeerAddr, length_octetsV4]
    simp only [ofOctetsV4_octetsV4]
  | v6 addr =>
    rw [buildCompactPeerAddr, parseCompactPeerAddr, length_octetsV6]
    simp only [ofOctetsV6_octetsV6 h]

/-- So is a list of them. -/
theorem filterMap_parse_build {addrs : List SocketAddr} (h : ∀ a ∈ addrs, a.Plain) :
    ((addrs.map fun a => byteString (buildCompactPeerAddr a)).filterMap
      BencodeValue.asBytes).filterMap parseCompactPeerAddr = addrs := by
  induction addrs with
  | nil => rfl
  | cons a addrs ih =>
    have ha := parseCompactPeerAddr_build (h a List.mem_cons_self)
    have htail := ih fun x hx => h x (List.mem_cons_of_mem _ hx)
    simp only [List.map_cons, List.filterMap_cons, BencodeValue.asBytes, ha, htail]

theorem parseId20_val (id : InfoHash) : Message.parseId20 id.val = some id := dif_pos id.property

namespace Message

/-- The values under a message are nested three deep. -/
theorem fits_serializeList (n : ℕ) (want : Want) : Fits (n + 1) want.serializeList := by
  cases want
  all_goals
    apply fits_list
    intro v hv
    simp only [List.mem_cons, List.not_mem_nil, or_false] at hv
  · exact hv ▸ fits_byteString n _
  · exact hv ▸ fits_byteString n _
  · rcases hv with rfl | rfl
    · exact fits_byteString n _
    · exact fits_byteString n _

theorem fits_query {n : ℕ} (t : List UInt8) (method : String) {a : BTreeMap Str BencodeValue}
    (h : FitsMap n a) : Fits (n + 2) (query t method a) := by
  apply fits_dict
  apply fitsMap_ofEntries
  intro e he
  simp only [List.mem_cons, List.not_mem_nil, or_false] at he
  rcases he with rfl | rfl | rfl | rfl
  · exact fits_byteString _ _
  · exact fits_byteString _ _
  · exact fits_byteString _ _
  · exact fits_dict h

theorem fits_response {n : ℕ} (t : List UInt8) {r : BTreeMap Str BencodeValue} (h : FitsMap n r)
    (ip : Option SocketAddr) : Fits (n + 2) (response t r ip) := by
  have hd := ((((fitsMap_nil (n + 1)).insert (.ascii "t") (fits_byteString _ t)).insert
    (.ascii "y") (fits_byteString _ (Str.asciiBytes "r"))).insert (.ascii "r") (fits_dict h))
  cases ip with
  | none => exact fits_dict hd
  | some addr => exact fits_dict (hd.insert (.ascii "ip") (fits_byteString _ _))

theorem fitsMap_withId (n : ℕ) (id : InfoHash) : FitsMap n (withId id) :=
  (fitsMap_nil n).insert _ (fits_byteString n _)

theorem fitsMap_insertWant {n : ℕ} {a : BTreeMap Str BencodeValue} (h : FitsMap (n + 1) a)
    (want : Want) : FitsMap (n + 1) (insertWant a want) := by
  by_cases hnone : want ≠ .none
  · rw [insertWant, if_pos hnone]
    exact h.insert _ (fits_serializeList n want)
  · rw [insertWant, if_neg hnone]
    exact h

theorem fitsMap_insertNodes {n : ℕ} {r : BTreeMap Str BencodeValue} (h : FitsMap n r)
    (key : String) (nodes : List UInt8) : FitsMap n (insertNodes r key nodes) := by
  by_cases hnil : nodes ≠ []
  · rw [insertNodes, if_pos hnil]
    exact h.insert _ (fits_byteString n nodes)
  · rw [insertNodes, if_neg hnil]
    exact h

theorem fitsMap_insertValues {n : ℕ} {r : BTreeMap Str BencodeValue} (h : FitsMap (n + 1) r)
    (values : List SocketAddr) : FitsMap (n + 1) (insertValues r values) := by
  by_cases hnil : values ≠ []
  · rw [insertValues, if_pos hnil]
    apply h.insert
    apply fits_list
    intro v hv
    obtain ⟨a, -, rfl⟩ := List.mem_map.mp hv
    exact fits_byteString n _
  · rw [insertValues, if_neg hnil]
    exact h

/-- A message is nested far less than the parser reads. -/
theorem fits_toValue (n : ℕ) (m : Message) : Fits (n + 3) m.toValue := by
  -- each message is a dictionary with at most one more inside
  cases m with
  | pingRequest t id =>
    apply fits_query
    apply fitsMap_ofEntries
    intro e he
    rw [List.mem_singleton.mp he]
    exact fits_byteString _ _
  | pingResponse t id ip | announcePeerResponse t id ip =>
    exact fits_response t (fitsMap_withId _ id) ip
  | findNodeRequest t id target want =>
    apply fits_query
    exact fitsMap_insertWant ((fitsMap_withId _ id).insert _ (fits_byteString _ _)) want
  | getPeersRequest t id infoHash want =>
    apply fits_query
    exact fitsMap_insertWant ((fitsMap_withId _ id).insert _ (fits_byteString _ _)) want
  | findNodeResponse t id nodes nodes6 ip =>
    apply fits_response
    apply fitsMap_insertNodes
    exact fitsMap_insertNodes (fitsMap_withId _ id) _ _
  | getPeersResponse t id token values nodes nodes6 ip =>
    apply fits_response
    apply fitsMap_insertNodes
    apply fitsMap_insertNodes
    exact fitsMap_insertValues ((fitsMap_withId _ id).insert _ (fits_byteString _ token)) values
  | announcePeerRequest t id infoHash token port impliedPort =>
    have hport := port.toNat_lt
    have himplied := impliedPort.toNat_lt
    apply fits_query
    apply fitsMap_ofEntries
    intro e he
    simp only [List.mem_cons, List.not_mem_nil, or_false] at he
    rcases he with rfl | rfl | rfl | rfl | rfl
    · exact fits_byteString _ _
    · exact fits_byteString _ _
    · exact fits_byteString _ _
    · exact BencodeValue.fits_integer _ (by omega) (by omega)
    · exact BencodeValue.fits_integer _ (by omega) (by omega)
  | error t code message =>
    have hmin := code.le_toInt
    have hmax := code.toInt_lt
    apply fits_dict
    apply fitsMap_ofEntries
    intro e he
    simp only [List.mem_cons, List.not_mem_nil, or_false] at he
    rcases he with rfl | rfl | rfl
    · exact fits_byteString _ _
    · exact fits_byteString _ _
    · apply fits_list
      intro v hv
      simp only [List.mem_cons, List.not_mem_nil, or_false] at hv
      rcases hv with rfl | rfl
      · exact BencodeValue.fits_integer _ (by omega) (by omega)
      · exact fits_byteString _ _

/-- What the dictionary of a query holds. -/
theorem get_query (t : List UInt8) (method : String) (a : BTreeMap Str BencodeValue) :
    ∃ d : BTreeMap Str BencodeValue, query t method a = dict d ∧ getBytes d "t" = some t ∧
      getBytes d "y" = some (Str.asciiBytes "q") ∧ getBytes d "q" = some (Str.asciiBytes method) ∧
      d.get (.ascii "a") = some (dict a) := by
  refine ⟨_, rfl, ?_, ?_, ?_, ?_⟩
  all_goals simp only [getBytes, BTreeMap.ofEntries, BTreeMap.extend_cons, BTreeMap.extend_nil,
    BTreeMap.get_insert]
  · rw [if_neg (by decide), if_neg (by decide), if_neg (by decide), if_pos trivial]
    rfl
  · rw [if_neg (by decide), if_neg (by decide), if_pos trivial]
    rfl
  · rw [if_neg (by decide), if_pos trivial]
    rfl
  · rw [if_pos trivial]

/-- A query is read by its method and its arguments. -/
theorem ofValue_query (t : List UInt8) (method : String) {a : BTreeMap Str BencodeValue}
    {id : InfoHash} (hid : a.get (.ascii "id") = some (byteString id.val)) :
    ofValue (query t method a) = ofMethod t (Str.asciiBytes method) id a := by
  obtain ⟨d, hd, ht, hy, hq, ha⟩ := get_query t method a
  have hidBytes : getBytes a "id" = some id.val := by
    rw [getBytes, hid]
    rfl
  rw [hd]
  simp only [ofValue, ofQuery, BencodeValue.asDict, Option.bind_eq_bind, Option.bind_some, ht, hy,
    hq, ha, hidBytes, if_true, parseId20_val]

/-- What the dictionary of a response holds. -/
theorem get_response (t : List UInt8) (r : BTreeMap Str BencodeValue) (ip : Option SocketAddr) :
    ∃ d : BTreeMap Str BencodeValue, response t r ip = dict d ∧ getBytes d "t" = some t ∧
      getBytes d "y" = some (Str.asciiBytes "r") ∧ d.get (.ascii "r") = some (dict r) ∧
      getBytes d "ip" = ip.map buildCompactPeerAddr := by
  cases ip with
  | none =>
    refine ⟨_, rfl, ?_, ?_, ?_, ?_⟩
    all_goals simp only [getBytes, BTreeMap.get_insert, BTreeMap.get_nil]
    · rw [if_neg (by decide), if_neg (by decide), if_pos trivial]
      rfl
    · rw [if_neg (by decide), if_pos trivial]
      rfl
    · rw [if_pos trivial]
    · rw [if_neg (by decide), if_neg (by decide), if_neg (by decide)]
      rfl
  | some addr =>
    refine ⟨_, rfl, ?_, ?_, ?_, ?_⟩
    all_goals simp only [getBytes, BTreeMap.get_insert, BTreeMap.get_nil]
    · rw [if_neg (by decide), if_neg (by decide), if_neg (by decide), if_pos trivial]
      rfl
    · rw [if_neg (by decide), if_neg (by decide), if_pos trivial]
      rfl
    · rw [if_neg (by decide), if_pos trivial]
    · rw [if_pos trivial]
      rfl

/-- A response is read by its results. -/
theorem ofValue_response (t : List UInt8) {r : BTreeMap Str BencodeValue} {id : InfoHash}
    (hid : r.get (.ascii "id") = some (byteString id.val)) {ip : Option SocketAddr}
    (hip : ∀ a ∈ ip, a.Plain) : ofValue (response t r ip) = some (ofResults t id r ip) := by
  obtain ⟨d, hd, ht, hy, hr, hipBytes⟩ := get_response t r ip
  have hidBytes : getBytes r "id" = some id.val := by
    rw [getBytes, hid]
    rfl
  have hparse : (ip.map buildCompactPeerAddr).bind parseCompactPeerAddr = ip := by
    cases ip with
    | none => rfl
    | some addr => exact parseCompactPeerAddr_build (hip addr rfl)
  have hq : Str.asciiBytes "r" ≠ Str.asciiBytes "q" := by decide
  rw [hd]
  simp only [ofValue, ofResponse, BencodeValue.asDict, Option.bind_eq_bind, Option.bind_some, ht,
    hy, hr, hidBytes, hipBytes, hparse, hq, if_true, if_false, parseId20_val]
  rfl

theorem get_withId (id : InfoHash) : (withId id).get (.ascii "id") = some (byteString id.val) := by
  rw [withId, BTreeMap.get_insert, if_pos rfl]

theorem get_withId_of_ne {k : Str} (hk : Str.ascii "id" ≠ k) (id : InfoHash) :
    (withId id).get k = none := by
  rw [withId, BTreeMap.get_insert, if_neg hk, BTreeMap.get_nil]

theorem get_insertWant_of_ne {k : Str} (hk : Str.ascii "want" ≠ k)
    (a : BTreeMap Str BencodeValue) (want : Want) : (insertWant a want).get k = a.get k := by
  by_cases hnone : want ≠ .none
  · rw [insertWant, if_pos hnone, BTreeMap.get_insert, if_neg hk]
  · rw [insertWant, if_neg hnone]

/-- The families that were wanted are read back. -/
theorem getWant_insertWant {a : BTreeMap Str BencodeValue}
    (ha : a.get (.ascii "want") = none) (want : Want) : getWant (insertWant a want) = want := by
  by_cases hnone : want ≠ .none
  · rw [getWant, insertWant, if_pos hnone, BTreeMap.get_insert, if_pos rfl]
    cases want
    all_goals decide +kernel
  · obtain rfl := not_not.mp hnone
    rw [getWant, insertWant, if_neg hnone, ha]
    rfl

/-- What the arguments of a query with a target at `key` hold. -/
theorem get_target (id x : InfoHash) (key : String) (hid : Str.ascii key ≠ .ascii "id")
    (hwant : Str.ascii "want" ≠ .ascii key) (want : Want) :
    let a := insertWant ((withId id).insert (.ascii key) (byteString x.val)) want
    a.get (.ascii "id") = some (byteString id.val) ∧
      (getBytes a key).bind parseId20 = some x ∧ getWant a = want := by
  refine ⟨?_, ?_, ?_⟩
  · rw [get_insertWant_of_ne (by decide), BTreeMap.get_insert, if_neg hid, get_withId]
  · rw [getBytes, get_insertWant_of_ne hwant, BTreeMap.get_insert, if_pos rfl]
    exact parseId20_val x
  · apply getWant_insertWant
    rw [BTreeMap.get_insert, if_neg hwant.symm, get_withId_of_ne (by decide)]

theorem get_insertNodes_of_ne {key : String} {k : Str} (hk : Str.ascii key ≠ k)
    (r : BTreeMap Str BencodeValue) (nodes : List UInt8) :
    (insertNodes r key nodes).get k = r.get k := by
  by_cases hnil : nodes ≠ []
  · rw [insertNodes, if_pos hnil, BTreeMap.get_insert, if_neg hk]
  · rw [insertNodes, if_neg hnil]

/-- A list that was left out is read as the empty list. -/
theorem getBytesOrDefault_insertNodes {r : BTreeMap Str BencodeValue} {key : String}
    (h : r.get (.ascii key) = none) (nodes : List UInt8) :
    getBytesOrDefault (insertNodes r key nodes) key = nodes := by
  by_cases hnil : nodes ≠ []
  · rw [getBytesOrDefault, getBytes, insertNodes, if_pos hnil, BTreeMap.get_insert, if_pos rfl]
    rfl
  · rw [getBytesOrDefault, getBytes, insertNodes, if_neg hnil, h, not_not.mp hnil]
    rfl

/-- What the results hold once the two node lists have been added. -/
theorem get_nodes {r : BTreeMap Str BencodeValue} (h : r.get (.ascii "nodes") = none)
    (h6 : r.get (.ascii "nodes6") = none) (nodes nodes6 : List UInt8) :
    let r' := insertNodes (insertNodes r "nodes" nodes) "nodes6" nodes6
    getBytesOrDefault r' "nodes" = nodes ∧ getBytesOrDefault r' "nodes6" = nodes6 ∧
      ((r'.get (.ascii "nodes")).isSome ↔ nodes ≠ []) ∧
      ∀ k, Str.ascii "nodes" ≠ k → Str.ascii "nodes6" ≠ k → r'.get k = r.get k := by
  refine ⟨?_, ?_, ?_, ?_⟩
  · rw [getBytesOrDefault, getBytes, get_insertNodes_of_ne (by decide)]
    exact getBytesOrDefault_insertNodes h nodes
  · apply getBytesOrDefault_insertNodes
    rw [get_insertNodes_of_ne (by decide), h6]
  · rw [get_insertNodes_of_ne (by decide)]
    by_cases hnil : nodes ≠ []
    · rw [insertNodes, if_pos hnil, BTreeMap.get_insert, if_pos rfl]
      exact iff_of_true rfl hnil
    · rw [insertNodes, if_neg hnil, h]
      exact iff_of_false (by simp) hnil
  · intro k hk hk6
    rw [get_insertNodes_of_ne hk6, get_insertNodes_of_ne hk]

theorem ofValue_findNodeRequest (t : List UInt8) (id target : InfoHash) (want : Want) :
    ofValue (findNodeRequest t id target want).toValue =
      some (findNodeRequest t id target want) := by
  obtain ⟨hid, htarget, hwant⟩ := get_target id target "target" (by decide) (by decide) want
  rw [toValue, ofValue_query t "find_node" hid, ofMethod, if_neg (by decide), if_pos rfl]
  simp only [Option.bind_eq_bind, Option.pure_def]
  rw [← Option.bind_assoc, htarget, hwant, Option.bind_some]

theorem ofValue_getPeersRequest (t : List UInt8) (id infoHash : InfoHash) (want : Want) :
    ofValue (getPeersRequest t id infoHash want).toValue =
      some (getPeersRequest t id infoHash want) := by
  obtain ⟨hid, hhash, hwant⟩ := get_target id infoHash "info_hash" (by decide) (by decide) want
  rw [toValue, ofValue_query t "get_peers" hid, ofMethod, if_neg (by decide), if_neg (by decide),
    if_pos rfl]
  simp only [Option.bind_eq_bind, Option.pure_def]
  rw [← Option.bind_assoc, hhash, hwant, Option.bind_some]

/-- A response to `find_node` without IPv4 nodes has the keys of a ping response. -/
theorem ofValue_findNodeResponse (t : List UInt8) (id : InfoHash) (nodes nodes6 : List UInt8)
    {ip : Option SocketAddr} (hip : ∀ a ∈ ip, a.Plain) :
    ofValue (findNodeResponse t id nodes nodes6 ip).toValue =
      some (if nodes = [] then pingResponse t id ip
        else findNodeResponse t id nodes nodes6 ip) := by
  obtain ⟨hnodes, hnodes6, hhas, hother⟩ :=
    get_nodes (get_withId_of_ne (by decide) id) (get_withId_of_ne (by decide) id) nodes nodes6
  have hid := (hother (.ascii "id") (by decide) (by decide)).trans (get_withId id)
  have htoken := (hother (.ascii "token") (by decide) (by decide)).trans
    (get_withId_of_ne (by decide) id)
  have hvalues := (hother (.ascii "values") (by decide) (by decide)).trans
    (get_withId_of_ne (by decide) id)
  rw [toValue, ofValue_response t hid hip, ofResults, htoken, hvalues, hnodes, hnodes6]
  by_cases hnil : nodes = []
  · rw [if_pos hnil, if_neg (by decide), if_neg (hhas.not.mpr (not_not.mpr hnil))]
  · rw [if_neg hnil, if_neg (by decide), if_pos (hhas.mpr hnil)]

theorem get_insertValues_of_ne {k : Str} (hk : Str.ascii "values" ≠ k)
    (r : BTreeMap Str BencodeValue) (values : List SocketAddr) :
    (insertValues r values).get k = r.get k := by
  by_cases hnil : values ≠ []
  · rw [insertValues, if_pos hnil, BTreeMap.get_insert, if_neg hk]
  · rw [insertValues, if_neg hnil]

/-- The values of the results depend on nothing but their key. -/
theorem getValues_congr {r r' : BTreeMap Str BencodeValue}
    (h : r'.get (.ascii "values") = r.get (.ascii "values")) : getValues r' = getValues r := by
  rw [getValues, h, getValues]

/-- The peers of a response are read back. -/
theorem getValues_insertValues {r : BTreeMap Str BencodeValue}
    (h : r.get (.ascii "values") = none) {values : List SocketAddr}
    (hvalues : ∀ a ∈ values, a.Plain) : getValues (insertValues r values) = values := by
  by_cases hnil : values ≠ []
  · rw [getValues, insertValues, if_pos hnil, BTreeMap.get_insert, if_pos rfl]
    exact filterMap_parse_build hvalues
  · rw [getValues, insertValues, if_neg hnil, h, not_not.mp hnil]
    rfl

theorem ofValue_getPeersResponse (t : List UInt8) (id : InfoHash) (token : List UInt8)
    {values : List SocketAddr} (hvalues : ∀ a ∈ values, a.Plain) (nodes nodes6 : List UInt8)
    {ip : Option SocketAddr} (hip : ∀ a ∈ ip, a.Plain) :
    ofValue (getPeersResponse t id token values nodes nodes6 ip).toValue =
      some (getPeersResponse t id token values nodes nodes6 ip) := by
  let r₀ := (withId id).insert (.ascii "token") (byteString token)
  have hr₀ : ∀ k, Str.ascii "id" ≠ k → Str.ascii "token" ≠ k → r₀.get k = none := by
    intro k hk htoken
    rw [BTreeMap.get_insert, if_neg htoken, get_withId_of_ne hk]
  have hr₁ : ∀ k, Str.ascii "values" ≠ k → (insertValues r₀ values).get k = r₀.get k := by
    intro k hk
    exact get_insertValues_of_ne hk r₀ values
  obtain ⟨hnodes, hnodes6, -, hother⟩ := get_nodes (r := insertValues r₀ values)
    ((hr₁ _ (by decide)).trans (hr₀ _ (by decide) (by decide)))
    ((hr₁ _ (by decide)).trans (hr₀ _ (by decide) (by decide))) nodes nodes6
  have hr₀id : r₀.get (.ascii "id") = some (byteString id.val) := by
    rw [BTreeMap.get_insert, if_neg (by decide), get_withId]
  have hr₀token : r₀.get (.ascii "token") = some (byteString token) := by
    rw [BTreeMap.get_insert, if_pos rfl]
  have hid := (hother (.ascii "id") (by decide) (by decide)).trans
    ((hr₁ _ (by decide)).trans hr₀id)
  have htoken := (hother (.ascii "token") (by decide) (by decide)).trans
    ((hr₁ _ (by decide)).trans hr₀token)
  have hpeers := getValues_congr (hother (.ascii "values") (by decide) (by decide))
  rw [getValues_insertValues (hr₀ _ (by decide) (by decide)) hvalues] at hpeers
  rw [toValue, ofValue_response t hid hip, ofResults, hnodes, hnodes6, hpeers, getBytesOrDefault,
    getBytes, htoken]
  rfl

theorem ofInt_port (n : UInt16) : UInt16.ofInt n.toNat = n := by
  have hlt := n.toNat_lt
  have hmod : ((n.toNat : ℤ) % 2 ^ 16).toNat = n.toNat := by omega
  rw [UInt16.ofInt, hmod, UInt16.ofNat_toNat]

theorem ofValue_announcePeerRequest (t : List UInt8) (id infoHash : InfoHash)
    (token : List UInt8) (port : UInt16) (impliedPort : UInt8) :
    ofValue (announcePeerRequest t id infoHash token port impliedPort).toValue =
      some (announcePeerRequest t id infoHash token port impliedPort) := by
  rw [toValue, @ofValue_query t "announce_peer" _ id]
  · simp +decide [ofMethod, getBytes, BTreeMap.ofEntries, BTreeMap.get_insert,
      BencodeValue.asBytes, BencodeValue.asInteger, parseId20_val, ofInt_port, Num.ofInt_byte]
  · simp +decide [BTreeMap.ofEntries, BTreeMap.get_insert]

/-- What the dictionary of an error holds. -/
theorem get_error (t : List UInt8) (code : Int32) (message : List UInt8) :
    ∃ d : BTreeMap Str BencodeValue, (error t code message).toValue = dict d ∧
      getBytes d "t" = some t ∧ getBytes d "y" = some (Str.asciiBytes "e") ∧
      d.get (.ascii "e") = some (list [integer code.toInt, byteString message]) := by
  refine ⟨_, rfl, ?_, ?_, ?_⟩
  all_goals simp only [getBytes, BTreeMap.ofEntries, BTreeMap.extend_cons, BTreeMap.extend_nil,
    BTreeMap.get_insert]
  · rw [if_neg (by decide), if_neg (by decide), if_pos trivial]
    rfl
  · rw [if_neg (by decide), if_pos trivial]
    rfl
  · rw [if_pos trivial]

theorem ofValue_error (t : List UInt8) (code : Int32) (message : List UInt8) :
    ofValue (error t code message).toValue = some (error t code message) := by
  obtain ⟨d, hd, ht, hy, he⟩ := get_error t code message
  have hq : Str.asciiBytes "e" ≠ Str.asciiBytes "q" := by decide
  have hr : Str.asciiBytes "e" ≠ Str.asciiBytes "r" := by decide
  rw [hd]
  simp only [ofValue, ofError, BencodeValue.asDict, BencodeValue.asList, Option.bind_eq_bind,
    Option.bind_some, ht, hy, he, hq, hr, if_true, if_false]
  simp [BencodeValue.asInteger, BencodeValue.asBytes]

/-- The addresses in a message. -/
def addrs : Message → List SocketAddr
  | pingResponse _ _ ip | findNodeResponse _ _ _ _ ip | announcePeerResponse _ _ ip => ip.toList
  | getPeersResponse _ _ _ values _ _ ip => values ++ ip.toList
  | _ => []

/-- A response to `find_node` with no IPv4 nodes. -/
def LacksNodes : Message → Prop
  | findNodeResponse _ _ nodes _ _ => nodes = []
  | _ => False

/-- What a message is read back as. -/
def readBack (m : Message) : Message :=
  match m with
  | findNodeResponse t id [] _ ip | announcePeerResponse t id ip => pingResponse t id ip
  | m => m

theorem ofValue_toValue {m : Message} (h : ∀ a ∈ m.addrs, a.Plain) :
    ofValue m.toValue = some m.readBack := by
  have hip {ip : Option SocketAddr} (h : ∀ a ∈ ip.toList, a.Plain) : ∀ a ∈ ip, a.Plain := by
    intro a ha
    exact h a (Option.mem_toList.mpr ha)
  cases m with
  | pingRequest t id => exact ofValue_query t "ping" (get_withId id)
  | pingResponse t id ip | announcePeerResponse t id ip =>
    exact ofValue_response t (get_withId id) (hip h)
  | findNodeRequest t id target want => exact ofValue_findNodeRequest t id target want
  | getPeersRequest t id infoHash want => exact ofValue_getPeersRequest t id infoHash want
  | findNodeResponse t id nodes nodes6 ip =>
    rw [ofValue_findNodeResponse t id nodes nodes6 (hip h)]
    cases nodes with
    | nil => rfl
    | cons => rfl
  | getPeersResponse t id token values nodes nodes6 ip =>
    obtain ⟨hvalues, hlast⟩ := List.forall_mem_append.mp h
    exact ofValue_getPeersResponse t id token hvalues nodes nodes6 (hip hlast)
  | announcePeerRequest t id infoHash token port impliedPort =>
    exact ofValue_announcePeerRequest t id infoHash token port impliedPort
  | error t code message => exact ofValue_error t code message

end Message

/-- The bytes of a message parse to its value. -/
theorem deserialize_serialize (b : Build) {m : Message} {data : Bytes}
    (haddrs : ∀ a ∈ m.addrs, a.Plain) (hdata : serialize m = .ok data) :
    deserialize b data = .ok (some m.readBack) := by
  have hfits : Fits maxParseDepth m.toValue := m.fits_toValue 125
  have hparse : parse b data = .ok m.toValue := parse_encode_of_fits hfits hdata
  rw [deserialize, hparse]
  exact congrArg Outcome.ok (Message.ofValue_toValue haddrs)

section

/-- Every message but the two responses that look like the response to a ping is read
back as it was written. -/
theorem deserialize_serialize_iff (b : Build) {m : Message} {data : Bytes}
    (hkind : ∀ t id ip, m ≠ .announcePeerResponse t id ip) (haddrs : ∀ a ∈ m.addrs, a.Plain)
    (hdata : serialize m = .ok data) :
    deserialize b data = .ok (some m) ↔ ¬ m.LacksNodes := by
  rw [deserialize_serialize b haddrs hdata, Outcome.ok.injEq, Option.some.injEq]
  cases m with
  | findNodeResponse t id nodes nodes6 ip =>
    cases nodes with
    | nil => simp [Message.readBack, Message.LacksNodes]
    | cons => exact iff_of_true rfl (List.cons_ne_nil _ _)
  | announcePeerResponse t id ip => exact absurd rfl (hkind t id ip)
  | pingRequest | pingResponse | findNodeRequest | getPeersRequest | getPeersResponse
  | announcePeerRequest | error => exact iff_of_true rfl id

def letterId : InfoHash := ⟨List.replicate 20 0x41, rfl⟩

/-- A response to `get_peers` with two peers and a node, to a client with an IPv6 address. -/
def peersFound : Message :=
  .getPeersResponse (Str.asciiBytes "q1") letterId (Str.asciiBytes "tokn")
    [.v4 ⟨0x31323334, 0x3536⟩, .v6 ⟨0x6162636465666768696a6b6c6d6e6f70, 0x7172, 0, 0⟩]
    (List.replicate 26 0x34) [] (some (.v6 ⟨0x4142434445464748494a4b4c4d4e4f50, 0x5152, 0, 0⟩))

def peersFoundBytes : Bytes :=
  ⟨["d2:ip18:ABCDEFGHIJKLMNOPQR", "1:rd2:id20:AAAAAAAAAAAAAAAAAAAA",
    "5:nodes26:44444444444444444444444444", "5:token4:tokn",
    "6:valuesl6:123456", "18:abcdefghijklmnopqree", "1:t2:q11:y1:re"].flatMap Str.asciiBytes,
    by decide +kernel⟩

theorem deserialize_peersFound :
    serialize peersFound = .ok peersFoundBytes ∧
      deserialize .release peersFoundBytes = .ok (some peersFound) := by
  have hdata : serialize peersFound = .ok peersFoundBytes := by decide +kernel
  have haddrs : ∀ a ∈ peersFound.addrs, a.Plain := by
    intro a ha
    simp only [peersFound, Message.addrs, Option.toList_some, List.cons_append, List.nil_append,
      List.mem_cons, List.not_mem_nil, or_false] at ha
    obtain rfl | rfl | rfl := ha
    · trivial
    · exact ⟨rfl, rfl⟩
    · exact ⟨rfl, rfl⟩
  exact ⟨hdata,
    (deserialize_serialize_iff .release (fun _ _ _ => Message.noConfusion) haddrs hdata).mpr id⟩

/-- A response to `find_node` with one IPv6 node and no others. -/
def onlyNodes6 : Message :=
  .findNodeResponse (Str.asciiBytes "q2") letterId [] (List.replicate 38 0x36) none

def onlyNodes6Bytes : Bytes :=
  ⟨Str.asciiBytes ("d1:rd2:id20:AAAAAAAAAAAAAAAAAAAA6:nodes638:" ++
    "66666666666666666666666666666666666666" ++ "e1:t2:q21:y1:re"), by decide +kernel⟩

theorem onlyNodes6_read_as_ping :
    serialize onlyNodes6 = .ok onlyNodes6Bytes ∧
      deserialize .release onlyNodes6Bytes =
        .ok (some (.pingResponse (Str.asciiBytes "q2") letterId none)) ∧
      deserialize .release onlyNodes6Bytes ≠ .ok (some onlyNodes6) := by
  decide +kernel

end

end Dht

end Retorrent
