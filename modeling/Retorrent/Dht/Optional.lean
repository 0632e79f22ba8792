import Retorrent.Bencode.Depth
import Retorrent.Dht.RoundTrip

/-!
# Queries of other clients

What `deserialize` makes of a query that leaves out arguments that it may leave out, and that has
keys of its own.
-/

namespace Retorrent

open Rust BencodeValue

namespace BencodeValue

theorem Fits.mono {n n' : ℕ} {v : BencodeValue} (h : Fits n v) (hle : n ≤ n') : Fits n' v := by
  intro k u hu
  exact ⟨(h k u hu).1.trans hle, (h k u hu).2⟩

theorem FitsMap.extend {n : ℕ} {d : BTreeMap Str BencodeValue} (h : FitsMap n d)
    {es : List (Str × BencodeValue)} (hes : ∀ e ∈ es, Fits n e.2) : FitsMap n (d.extend es) := by
  refine ⟨BTreeMap.extend_sorted h.sorted, ?_⟩
  intro e he
  rcases BTreeMap.mem_extend he with he | he
  · exact h.values e he
  · exact hes e he

end BencodeValue

namespace Dht

/-- The arguments that a query may leave out. -/
inductive OptionalKey where
  | want
  | impliedPort
  deriving DecidableEq

def OptionalKey.name : OptionalKey → Str
  | want => .ascii "want"
  | impliedPort => .ascii "implied_port"

variable {deleted : List OptionalKey} {extra extraArgs a : List (Str × BencodeValue)}

/-- Some arguments are deleted and others are added. -/
def editArgs (deleted : List OptionalKey) (extraArgs : List (Str × BencodeValue))
    (a : BTreeMap Str BencodeValue) : BTreeMap Str BencodeValue :=
  BTreeMap.extend (a.filter fun e => e.1 ∉ deleted.map OptionalKey.name) extraArgs

/-- A query with other arguments and more keys. -/
def edit (deleted : List OptionalKey) (extraArgs extra : List (Str × BencodeValue)) :
    BencodeValue → BencodeValue
  | dict d =>
    match (BTreeMap.get d (.ascii "a")).bind asDict with
    | some a =>
      dict (BTreeMap.extend (BTreeMap.insert d (.ascii "a") (dict (editArgs deleted extraArgs a)))
        extra)
    | none => dict d
  | v => v

theorem mem_names_iff (key : OptionalKey) :
    key.name ∈ deleted.map OptionalKey.name ↔ key ∈ deleted := by
  refine ⟨?_, List.mem_map_of_mem⟩
  intro h
  obtain ⟨key', hmem, heq⟩ := List.mem_map.mp h
  have hsame : key' = key := by
    cases key <;> cases key' <;> first | rfl | exact absurd heq (by decide)
  exact hsame ▸ hmem

/-- An argument that is not optional stays. -/
theorem get_editArgs {k : Str} (hextra : ∀ e ∈ extraArgs, e.1 ≠ k)
    (hk : ∀ key : OptionalKey, key.name ≠ k) :
    (editArgs deleted extraArgs a).get k = BTreeMap.get a k := by
  have hkept : k ∉ deleted.map OptionalKey.name := by
    intro h
    obtain ⟨key, _, heq⟩ := List.mem_map.mp h
    exact hk key heq
  rw [editArgs, BTreeMap.get_extend_of_forall_ne hextra,
    BTreeMap.get_filter (fun k => decide (k ∉ deleted.map OptionalKey.name)),
    if_pos (decide_eq_true hkept)]

variable (deleted) in
theorem get_editArgs_name (key : OptionalKey) (hextra : ∀ e ∈ extraArgs, e.1 ≠ key.name) :
    (editArgs deleted extraArgs a).get key.name =
      if key ∈ deleted then none else BTreeMap.get a key.name := by
  rw [editArgs, BTreeMap.get_extend_of_forall_ne hextra,
    BTreeMap.get_filter (fun k => decide (k ∉ deleted.map OptionalKey.name))]
  by_cases hdeleted : key ∈ deleted
  · rw [if_pos hdeleted, if_neg (by simpa using (mem_names_iff key).mpr hdeleted)]
  · rw [if_neg hdeleted, if_pos (decide_eq_true ((mem_names_iff key).not.mpr hdeleted))]

theorem fitsMap_editArgs {n : ℕ} (h : FitsMap n a) (hextra : ∀ e ∈ extraArgs, Fits n e.2) :
    FitsMap n (editArgs deleted extraArgs a) := by
  refine FitsMap.extend ⟨BTreeMap.filter_sorted h.sorted _, ?_⟩ hextra
  intro e he
  exact h.values e (List.mem_of_mem_filter he)

namespace Message

def IsQuery : Message → Prop
  | pingRequest .. | findNodeRequest .. | getPeersRequest .. | announcePeerRequest .. => True
  | _ => False

/-- The keys that are read of a query. -/
def topKeys : List Str := [.ascii "t", .ascii "y", .ascii "q", .ascii "a"]

/-- The arguments that are read of a query. -/
def argKeys : Message → List Str
  | pingRequest .. => [.ascii "id"]
  | findNodeRequest .. => [.ascii "id", .ascii "target", .ascii "want"]
  | getPeersRequest .. => [.ascii "id", .ascii "info_hash", .ascii "want"]
  | announcePeerRequest .. =>
    [.ascii "id", .ascii "info_hash", .ascii "token", .ascii "port", .ascii "implied_port"]
  | _ => []

/-- The query with the deleted arguments at their defaults. -/
def withDefaults (deleted : List OptionalKey) : Message → Message
  | findNodeRequest t id target want =>
    findNodeRequest t id target (if .want ∈ deleted then .none else want)
  | getPeersRequest t id infoHash want =>
    getPeersRequest t id infoHash (if .want ∈ deleted then .none else want)
  | announcePeerRequest t id infoHash token port impliedPort =>
    announcePeerRequest t id infoHash token port
      (if .impliedPort ∈ deleted then 0 else impliedPort)
  | m => m

/-- An announcement without `implied_port`. -/
def LacksImpliedPort (deleted : List OptionalKey) : Message → Prop
  | announcePeerRequest .. => .impliedPort ∈ deleted
  | _ => False

instance (deleted : List OptionalKey) : (m : Message) → Decidable (m.LacksImpliedPort deleted)
  | announcePeerRequest .. => inferInstanceAs (Decidable (_ ∈ _))
  | pingRequest .. | findNodeRequest .. | getPeersRequest .. | pingResponse .. | findNodeResponse ..
  | getPeersResponse .. | announcePeerResponse .. | error .. => isFalse not_false

/-- A query is read by its method and its edited arguments. -/
theorem ofValue_edit (t : List UInt8) (method : String) {id : InfoHash}
    (hextra : ∀ e ∈ extra, e.1 ∉ topKeys)
    (hid : (editArgs deleted extraArgs a).get (.ascii "id") = some (byteString id.val)) :
    ofValue (edit deleted extraArgs extra (query t method a)) =
      ofMethod t (Str.asciiBytes method) id (editArgs deleted extraArgs a) := by
  obtain ⟨d, hd, ht, hy, hq, ha⟩ := get_query t method a
  generalize hedited : editArgs deleted extraArgs a = a' at hid ⊢
  have harguments : (BTreeMap.extend (BTreeMap.insert d (.ascii "a") (dict a')) extra).get
      (.ascii "a") = some (dict a') := by
    rw [BTreeMap.get_extend_of_forall_ne fun e he heq => hextra e he (heq ▸ by decide),
      BTreeMap.get_insert, if_pos rfl]
  have hother {key : String} (hkey : Str.ascii key ∈ topKeys) (hne : Str.ascii "a" ≠ .ascii key) :
      getBytes (BTreeMap.extend (BTreeMap.insert d (.ascii "a") (dict a')) extra) key =
        getBytes d key := by
    rw [getBytes, BTreeMap.get_extend_of_forall_ne fun e he heq => hextra e he (heq ▸ hkey),
      BTreeMap.get_insert, if_neg hne, getBytes]
  have hidBytes : getBytes a' "id" = some id.val := by
    rw [getBytes, hid]
    rfl
  rw [hd, edit, ha]
  simp only [Option.bind_some, asDict, ofValue, ofQuery, Option.bind_eq_bind, hedited]
  rw [hother (by decide) (by decide), hother (by decide) (by decide),
    hother (by decide) (by decide), harguments, hy, ht, hq]
  simp only [Option.bind_some, hidBytes, if_true, parseId20_val]

variable (deleted) in
/-- What the edited arguments of a query with a target at `key` hold. -/
theorem get_editArgs_target (id x : InfoHash) (key : String) (hid : Str.ascii key ≠ .ascii "id")
    (hkey : ∀ k : OptionalKey, k.name ≠ .ascii key) (want : Want)
    (hextra : ∀ e ∈ extraArgs, e.1 ∉ [.ascii "id", .ascii key, .ascii "want"]) :
    let a := editArgs deleted extraArgs
      (insertWant ((withId id).insert (.ascii key) (byteString x.val)) want)
    a.get (.ascii "id") = some (byteString id.val) ∧ (getBytes a key).bind parseId20 = some x ∧
      getWant a = if .want ∈ deleted then .none else want := by
  obtain ⟨hidGet, htarget, hwant⟩ := get_target id x key hid (hkey .want) want
  have hne {k : Str} (hk : k ∈ [Str.ascii "id", .ascii key, .ascii "want"]) :
      ∀ e ∈ extraArgs, e.1 ≠ k := fun e he heq => hextra e he (heq ▸ hk)
  refine ⟨?_, ?_, ?_⟩
  · rw [get_editArgs (hne (by simp)) fun k => by cases k <;> decide, hidGet]
  · rw [getBytes, get_editArgs (hne (by simp)) hkey]
    exact htarget
  · have hname := get_editArgs_name deleted .want (hne (by simp [OptionalKey.name]))
      (a := insertWant ((withId id).insert (.ascii key) (byteString x.val)) want)
    rw [getWant, show Str.ascii "want" = OptionalKey.name .want from rfl, hname]
    by_cases hdeleted : OptionalKey.want ∈ deleted
    · rw [if_pos hdeleted, if_pos hdeleted]
      rfl
    · rw [if_neg hdeleted, if_neg hdeleted]
      exact hwant

variable (deleted) in
/-- The arguments of an announcement. -/
theorem get_editArgs_announce (t : List UInt8) (id infoHash : InfoHash) (token : List UInt8)
    (port : UInt16) (impliedPort : UInt8)
    (hextra : ∀ e ∈ extraArgs,
      e.1 ∉ (announcePeerRequest t id infoHash token port impliedPort).argKeys) :
    ∃ a, (announcePeerRequest t id infoHash token port impliedPort).toValue =
        query t "announce_peer" a ∧
      (editArgs deleted extraArgs a).get (.ascii "id") = some (byteString id.val) ∧
      ofMethod t (Str.asciiBytes "announce_peer") id (editArgs deleted extraArgs a) =
        if .impliedPort ∈ deleted then none
        else some (announcePeerRequest t id infoHash token port impliedPort) := by
  refine ⟨_, rfl, ?_⟩
  have hne {k : Str} (hk : k ∈ (announcePeerRequest t id infoHash token port impliedPort).argKeys) :
      ∀ e ∈ extraArgs, e.1 ≠ k := fun e he heq => hextra e he (heq ▸ hk)
  have hget {k : Str} (hk : k ∈ argKeys (announcePeerRequest t id infoHash token port impliedPort))
      (hname : ∀ key : OptionalKey, key.name ≠ k) (a : BTreeMap Str BencodeValue) :
      (editArgs deleted extraArgs a).get k = BTreeMap.get a k := get_editArgs (hne hk) hname
  have himplied (a : BTreeMap Str BencodeValue) :=
    get_editArgs_name deleted (a := a) .impliedPort
      (hne (by simp [argKeys, OptionalKey.name]))
  rw [hget (by simp [argKeys]) fun key => by cases key <;> decide]
  refine ⟨by simp +decide [BTreeMap.ofEntries, BTreeMap.get_insert], ?_⟩
  rw [ofMethod, if_neg (by decide), if_neg (by decide), if_neg (by decide), if_pos rfl, getBytes,
    getBytes, hget (by simp [argKeys]) fun key => by cases key <;> decide,
    hget (by simp [argKeys]) fun key => by cases key <;> decide,
    hget (by simp [argKeys]) fun key => by cases key <;> decide,
    show Str.ascii "implied_port" = OptionalKey.name .impliedPort from rfl, himplied]
  by_cases hdeleted : OptionalKey.impliedPort ∈ deleted
  · simp +decide [hdeleted]
  · simp +decide [hdeleted, BTreeMap.ofEntries, BTreeMap.get_insert, OptionalKey.name,
      BencodeValue.asBytes, BencodeValue.asInteger, parseId20_val, ofInt_port, Num.ofInt_byte]

variable (deleted) in
/-- The edited arguments of a query are read as the query, unless they are of an announcement that
lacks `implied_port`. -/
theorem ofValue_edit_query {m : Message} (hquery : m.IsQuery)
    (hargs : ∀ e ∈ extraArgs, e.1 ∉ m.argKeys) (hextra : ∀ e ∈ extra, e.1 ∉ topKeys) :
    ofValue (edit deleted extraArgs extra m.toValue) =
      if m.LacksImpliedPort deleted then none else some (m.withDefaults deleted) := by
  cases m with
  | pingRequest t id =>
    have hid : (editArgs deleted extraArgs (withId id)).get (.ascii "id") =
        some (byteString id.val) := by
      rw [get_editArgs (fun e he heq => hargs e he (by simp [argKeys, heq]))
        fun key => by cases key <;> decide, get_withId]
    exact (ofValue_edit t "ping" hextra hid).trans (if_neg not_false).symm
  | findNodeRequest t id target want =>
    obtain ⟨hid, htarget, hwant⟩ := get_editArgs_target deleted id target "target"
      (by decide) (fun key => by cases key <;> decide) want hargs
    rw [toValue, ofValue_edit t "find_node" hextra hid, ofMethod, if_neg (by decide), if_pos rfl]
    simp only [Option.bind_eq_bind, Option.pure_def]
    rw [← Option.bind_assoc, htarget, hwant, Option.bind_some]
    exact (if_neg not_false).symm
  | getPeersRequest t id infoHash want =>
    obtain ⟨hid, hhash, hwant⟩ := get_editArgs_target deleted id infoHash "info_hash"
      (by decide) (fun key => by cases key <;> decide) want hargs
    rw [toValue, ofValue_edit t "get_peers" hextra hid, ofMethod, if_neg (by decide),
      if_neg (by decide), if_pos rfl]
    simp only [Option.bind_eq_bind, Option.pure_def]
    rw [← Option.bind_assoc, hhash, hwant, Option.bind_some]
    exact (if_neg not_false).symm
  | announcePeerRequest t id infoHash token port impliedPort =>
    obtain ⟨a, ha, hid, hmethod⟩ :=
      get_editArgs_announce deleted t id infoHash token port impliedPort hargs
    rw [ha, ofValue_edit t "announce_peer" hextra hid, hmethod]
    by_cases hdeleted : OptionalKey.impliedPort ∈ deleted
    · rw [if_pos hdeleted]
      exact (if_pos hdeleted).symm
    · rw [if_neg hdeleted, withDefaults, if_neg hdeleted]
      exact (if_neg hdeleted).symm
  | pingResponse | findNodeResponse | getPeersResponse | announcePeerResponse | error =>
    exact hquery.elim

end Message

/-- Editing leaves a value of the Rust type. -/
theorem fits_edit {n : ℕ} {v : BencodeValue} (hv : Fits (n + 3) v)
    (hargs : ∀ e ∈ extraArgs, Fits (n + 1) e.2) (hextra : ∀ e ∈ extra, Fits (n + 2) e.2) :
    Fits (n + 3) (edit deleted extraArgs extra v) := by
  cases v with
  | integer | byteString | list => exact hv
  | dict d =>
    have hd : FitsMap (n + 2) d := ⟨(hv 0 _ .root).2, fun e he => hv.entry he⟩
    rw [edit]
    split
    · next a ha =>
      obtain ⟨u, hu, hua⟩ := Option.bind_eq_some_iff.mp ha
      obtain ⟨e, he, rfl⟩ := Option.map_eq_some_iff.mp hu
      have hmem := List.mem_of_find?_eq_some he
      have hfits := hd.values e hmem
      cases hval : e.2 with
      | dict a' =>
        rw [hval] at hua hfits
        obtain rfl := Option.some.inj hua
        have ha' : FitsMap (n + 1) a' := ⟨(hfits 0 _ .root).2, fun e he => hfits.entry he⟩
        exact fits_dict ((hd.insert _ (fits_dict (fitsMap_editArgs ha' hargs))).extend hextra)
      | integer | byteString | list =>
        rw [hval] at hua
        cases hua
    · exact hv

/-- A query without some of its optional arguments and with keys that are not read is read as the
query with defaults, exactly when it is not an announcement that lacks `implied_port` and its
dictionary is nested no deeper than the parser reads. -/
theorem deserialize_edit_iff (b : Build) {m : Message} (hquery : m.IsQuery)
    (deleted : List OptionalKey) {n : ℕ} {extraArgs extra : List (Str × BencodeValue)}
    (hargs : ∀ e ∈ extraArgs, e.1 ∉ m.argKeys ∧ Fits n e.2)
    (hextra : ∀ e ∈ extra, e.1 ∉ Message.topKeys ∧ Fits n e.2) {data : Bytes}
    (hdata : (edit deleted extraArgs extra m.toValue).encode = .ok data) :
    deserialize b data = .ok (some (m.withDefaults deleted)) ↔
      ¬ m.LacksImpliedPort deleted ∧ Within 0 (edit deleted extraArgs extra m.toValue) := by
  have hfits : Fits (n + 3) (edit deleted extraArgs extra m.toValue) :=
    fits_edit (m.fits_toValue n) (fun e he => (hargs e he).2.mono (by omega))
      fun e he => (hextra e he).2.mono (by omega)
  have hvalue := Message.ofValue_edit_query deleted hquery
    (fun e he => (hargs e he).1) fun e he => (hextra e he).1
  have hparse (w : BencodeValue) := parse_encode_iff (b := b) (w := w) hfits hdata
  constructor
  · intro h
    rw [deserialize] at h
    split at h
    · next w hw =>
      obtain ⟨hwithin, rfl⟩ := (hparse w).mp hw
      rw [hvalue] at h
      refine ⟨?_, hwithin⟩
      intro hlacks
      rw [if_pos hlacks] at h
      cases Outcome.ok.inj h
    · cases Outcome.ok.inj h
    · cases h
    · cases h
  · rintro ⟨hlacks, hwithin⟩
    rw [deserialize, (hparse _).mpr ⟨hwithin, rfl⟩]
    exact congrArg Outcome.ok (hvalue.trans (if_neg hlacks))

/-- A search for nodes of both families. -/
def searchBoth : Message := .findNodeRequest [0x78] letterId letterId .both

/-- The search loses `want` and gets an argument and a key that are not read. -/
theorem deserialize_edit_searchBoth :
    ∃ data, (edit [.want] [(.ascii "ro", integer 1)] [(.ascii "v", byteString [0x4C, 0x54])]
        searchBoth.toValue).encode = .ok data ∧
      deserialize .release data = .ok (some (.findNodeRequest [0x78] letterId letterId .none)) := by
  have hargs : ∀ e ∈ [((.ascii "ro" : Str), integer 1)],
      e.1 ∉ searchBoth.argKeys ∧ Fits 0 e.2 := by
    intro e he
    rw [List.mem_singleton.mp he]
    exact ⟨by decide, fits_integer 0 (by decide) (by decide)⟩
  have hextra : ∀ e ∈ [((.ascii "v" : Str), byteString [0x4C, 0x54])],
      e.1 ∉ Message.topKeys ∧ Fits 0 e.2 := by
    intro e he
    rw [List.mem_singleton.mp he]
    exact ⟨by decide, fits_byteString 0 _⟩
  have hwithin : Within 0 (edit [.want] [(.ascii "ro", integer 1)]
      [(.ascii "v", byteString [0x4C, 0x54])] searchBoth.toValue) := by
    intro k u hu
    have hk := (fits_edit (searchBoth.fits_toValue 0)
      (fun e he => (hargs e he).2.mono (by omega))
      (fun e he => (hextra e he).2.mono (by omega)) k u hu).1
    rw [maxParseDepth]
    omega
  refine ⟨⟨_, ?_⟩, Bytes.ofList_eq_ok.mpr rfl, ?_⟩
  · decide +kernel
  · exact (deserialize_edit_iff .release (m := searchBoth) trivial [.want]
      hargs hextra (Bytes.ofList_eq_ok.mpr rfl)).mpr ⟨id, hwithin⟩

/-- An announcement without `implied_port` is not read. -/
theorem deserialize_without_impliedPort :
    ∃ data, (edit [.impliedPort] [] []
        (Message.announcePeerRequest [0x78] letterId letterId [0x61] 6881 0).toValue).encode =
          .ok data ∧
      deserialize .release data = .ok none := by
  refine ⟨⟨["d1:ad2:id20:AAAAAAAAAAAAAAAAAAAA", "9:info_hash20:AAAAAAAAAAAAAAAAAAAA",
    "4:porti6881e5:token1:ae", "1:q13:announce_peer1:t1:x1:y1:qe"].flatMap Str.asciiBytes,
    by decide +kernel⟩, ?_, ?_⟩
  · decide +kernel
  · decide +kernel

end Dht

end Retorrent
