import LuxKernel.Boot.Manifest

namespace LuxKernel.Boot

open Heapless Formats

def EdgeDecl.value (edge : EdgeDecl) : Value :=
  .array [.uint edge.src.get.toNat, .uint edge.dst.get.toNat]

def QuotaDecl.value (quota : QuotaDecl) : Value :=
  .array [.uint quota.node.get.toNat, .uint quota.ceiling.ceiling.toNat]

-- `[version, edges, quotas]`.
def Manifest.value (manifest : Manifest) : Value :=
  .array [.uint manifest.version.toNat, .array (manifest.edges.toList.map EdgeDecl.value),
    .array (manifest.quotas.toList.map QuotaDecl.value)]

section OrInvalid

variable [Minicbor] {detail : String} {input rest : Bytes}

omit [Minicbor] in
theorem orInvalid_eq_ok {α : Type} {x : Option α} {a : α} :
    orInvalid detail x = .ok a ↔ x = some a := by
  cases x <;> simp [orInvalid]

theorem orInvalid_array {n : Nat} : orInvalid detail (Minicbor.array input) = .ok (some n, rest) ↔
    ∃ header, Header 4 n header ∧ input = header ++ rest :=
  orInvalid_eq_ok.trans Minicbor.array_eq_some

theorem orInvalid_u32 {n : UInt32} : orInvalid detail (Minicbor.u32 input) = .ok (n, rest) ↔
    ∃ header, Header 0 n.toNat header ∧ input = header ++ rest :=
  orInvalid_eq_ok.trans Minicbor.u32_eq_some

theorem orInvalid_u64 {n : UInt64} : orInvalid detail (Minicbor.u64 input) = .ok (n, rest) ↔
    ∃ header, Header 0 n.toNat header ∧ input = header ++ rest :=
  orInvalid_eq_ok.trans Minicbor.u64_eq_some

omit [Minicbor] in
theorem orInvalid_node {raw : UInt32} {id : NodeId} :
    orInvalid detail (NodeId.new raw) = .ok id ↔ raw = id.get :=
  orInvalid_eq_ok.trans NodeId.new_eq_some

end OrInvalid

-- A reader that takes the encodings of one kind of value off the front of its input,
-- and nothing else.
def Reads {α : Type} (reader : Bytes → Result (α × Bytes)) (value : α → Value) : Prop :=
  ∀ input a rest, reader input = .ok (a, rest) ↔
    ∃ bytes, Encodes (value a) bytes ∧ input = bytes ++ rest

namespace ManifestDecoder

-- The two numbers of a row, after its header.
theorem encodesAll_pair {m n : Nat} {bytes : Bytes} :
    EncodesAll [.uint m, .uint n] bytes ↔
      ∃ first second, Header 0 m first ∧ Header 0 n second ∧ bytes = first ++ second := by
  rw [encodesAll_cons]
  simp only [encodes_uint]
  exact ⟨fun ⟨first, second, h1, h2, heq⟩ => ⟨first, second, h1, encodes_uint.mp h2, heq⟩,
    fun ⟨first, second, h1, h2, heq⟩ => ⟨first, second, h1, encodes_uint.mpr h2, heq⟩⟩

-- A row is its header and two numbers.
theorem encodes_row {m n : Nat} {bytes : Bytes} :
    Encodes (.array [.uint m, .uint n]) bytes ↔ ∃ header first second,
      Header 4 2 header ∧ Header 0 m first ∧ Header 0 n second ∧
        bytes = header ++ (first ++ second) := by
  rw [encodes_array]
  constructor
  · rintro ⟨header, body, hheader, hbody, rfl⟩
    obtain ⟨first, second, hfirst, hsecond, rfl⟩ := encodesAll_pair.mp hbody
    exact ⟨header, first, second, hheader, hfirst, hsecond, rfl⟩
  · rintro ⟨header, first, second, hheader, hfirst, hsecond, rfl⟩
    exact ⟨header, first ++ second, hheader,
      encodesAll_pair.mpr ⟨first, second, hfirst, hsecond, rfl⟩, rfl⟩

section Parser

variable [Minicbor]

theorem reads_parseEdge : Reads parseEdge EdgeDecl.value := by
  intro input edge rest
  constructor
  · intro h
    obtain ⟨⟨len, afterLen⟩, hlen, h⟩ := bind_eq_ok.mp h
    dsimp only at h
    split at h
    · cases h
    rename_i htwo
    obtain rfl := not_not.mp htwo
    obtain ⟨⟨srcRaw, afterSrc⟩, hsrc, h⟩ := bind_eq_ok.mp h
    obtain ⟨⟨dstRaw, afterDst⟩, hdst, h⟩ := bind_eq_ok.mp h
    obtain ⟨src, hnewsrc, h⟩ := bind_eq_ok.mp h
    obtain ⟨dst, hnewdst, h⟩ := bind_eq_ok.mp h
    obtain ⟨rfl, rfl⟩ := Prod.mk.inj (Except.ok.inj h)
    obtain ⟨header, hheader, rfl⟩ := orInvalid_array.mp hlen
    obtain ⟨first, hfirst, rfl⟩ := orInvalid_u32.mp hsrc
    obtain ⟨second, hsecond, rfl⟩ := orInvalid_u32.mp hdst
    obtain rfl : srcRaw = src.get := orInvalid_node.mp hnewsrc
    obtain rfl : dstRaw = dst.get := orInvalid_node.mp hnewdst
    refine ⟨_, encodes_row.mpr ⟨header, first, second, hheader, hfirst, hsecond, rfl⟩, ?_⟩
    simp only [List.append_assoc]
  · rintro ⟨bytes, henc, rfl⟩
    obtain ⟨header, first, second, hheader, hfirst, hsecond, rfl⟩ := encodes_row.mp henc
    simp only [List.append_assoc]
    refine bind_eq_ok.mpr ⟨_, orInvalid_array.mpr ⟨header, hheader, rfl⟩, ?_⟩
    dsimp only
    rw [if_neg (by simp)]
    refine bind_eq_ok.mpr ⟨_, orInvalid_u32.mpr ⟨first, hfirst, rfl⟩, ?_⟩
    refine bind_eq_ok.mpr ⟨_, orInvalid_u32.mpr ⟨second, hsecond, rfl⟩, ?_⟩
    refine bind_eq_ok.mpr ⟨_, orInvalid_node.mpr rfl, ?_⟩
    exact bind_eq_ok.mpr ⟨_, orInvalid_node.mpr rfl, rfl⟩

theorem reads_parseQuota : Reads parseQuota QuotaDecl.value := by
  intro input quota rest
  constructor
  · intro h
    obtain ⟨⟨len, afterLen⟩, hlen, h⟩ := bind_eq_ok.mp h
    dsimp only at h
    split at h
    · cases h
    rename_i htwo
    obtain rfl := not_not.mp htwo
    obtain ⟨⟨nodeRaw, afterNode⟩, hnode, h⟩ := bind_eq_ok.mp h
    obtain ⟨⟨ceilingRaw, afterCeiling⟩, hceiling, h⟩ := bind_eq_ok.mp h
    obtain ⟨node, hnew, h⟩ := bind_eq_ok.mp h
    obtain ⟨rfl, rfl⟩ := Prod.mk.inj (Except.ok.inj h)
    obtain ⟨header, hheader, rfl⟩ := orInvalid_array.mp hlen
    obtain ⟨first, hfirst, rfl⟩ := orInvalid_u32.mp hnode
    obtain ⟨second, hsecond, rfl⟩ := orInvalid_u64.mp hceiling
    obtain rfl : nodeRaw = node.get := orInvalid_node.mp hnew
    refine ⟨_, encodes_row.mpr ⟨header, first, second, hheader, hfirst, hsecond, rfl⟩, ?_⟩
    simp only [List.append_assoc]
  · rintro ⟨bytes, henc, rfl⟩
    obtain ⟨header, first, second, hheader, hfirst, hsecond, rfl⟩ := encodes_row.mp henc
    simp only [List.append_assoc]
    refine bind_eq_ok.mpr ⟨_, orInvalid_array.mpr ⟨header, hheader, rfl⟩, ?_⟩
    dsimp only
    rw [if_neg (by simp)]
    refine bind_eq_ok.mpr ⟨_, orInvalid_u32.mpr ⟨first, hfirst, rfl⟩, ?_⟩
    refine bind_eq_ok.mpr ⟨_, orInvalid_u64.mpr ⟨second, hsecond, rfl⟩, ?_⟩
    exact bind_eq_ok.mpr ⟨_, orInvalid_node.mpr rfl, rfl⟩

section Items

variable {α : Type} {N : Nat} {item : Bytes → Result (α × Bytes)} {value : α → Value}
variable {full : String}

omit [Minicbor] in
-- Each turn of the loop takes one encoding off the input. The vector has room for
-- all of them, since it holds them in the end.
theorem parseItems_eq_ok (hitem : Reads item value) {count : Nat} {items items' : HVec α N}
    {input rest : Bytes} : parseItems item full count items input = .ok (items', rest) ↔
      ∃ new bytes, new.length = count ∧ items'.toList = items.toList ++ new ∧
        EncodesAll (new.map value) bytes ∧ input = bytes ++ rest := by
  induction count generalizing items input with
  | zero =>
      constructor
      · intro h
        obtain ⟨rfl, rfl⟩ := Prod.mk.inj (Except.ok.inj h)
        exact ⟨[], [], rfl, (List.append_nil _).symm, .nil, rfl⟩
      · rintro ⟨new, bytes, hlen, hitems, henc, rfl⟩
        obtain rfl := List.length_eq_zero_iff.mp hlen
        obtain rfl := encodesAll_nil.mp henc
        rw [List.append_nil] at hitems
        rw [HVec.ext hitems]
        rfl
  | succ count ih =>
      constructor
      · intro h
        obtain ⟨⟨next, afterNext⟩, hnext, hstep⟩ := bind_eq_ok.mp h
        obtain ⟨grown, hpush, hloop⟩ := bind_eq_ok.mp hstep
        obtain ⟨first, hfirst, rfl⟩ := (hitem _ _ _).mp hnext
        obtain ⟨-, hgrown⟩ := HVec.push_eq_some_iff.mp (orInvalid_eq_ok.mp hpush)
        obtain ⟨new, bytes, rfl, hitems, henc, rfl⟩ := ih.mp hloop
        refine ⟨next :: new, first ++ bytes, rfl, ?_, ?_, by rw [List.append_assoc]⟩
        · rw [hitems, hgrown, List.append_assoc, List.singleton_append]
        · exact encodesAll_cons.mpr ⟨first, bytes, hfirst, henc, rfl⟩
      · rintro ⟨new, bytes, hlen, hitems, henc, rfl⟩
        obtain ⟨next, new, rfl⟩ := List.exists_cons_of_length_eq_add_one hlen
        obtain ⟨first, others, hfirst, hothers, rfl⟩ := encodesAll_cons.mp henc
        have hfits := items'.length_le
        rw [hitems, List.length_append, List.length_cons] at hfits
        have hroom : items.toList.length < N := by omega
        obtain ⟨grown, hpush⟩ := Option.ne_none_iff_exists'.mp
          (mt (HVec.push_eq_none_iff (x := next)).mp (Nat.not_le.mpr hroom))
        have hgrown := (HVec.push_eq_some_iff.mp hpush).2
        rw [List.append_assoc]
        refine bind_eq_ok.mpr ⟨_, (hitem _ _ _).mpr ⟨first, hfirst, rfl⟩, ?_⟩
        refine bind_eq_ok.mpr ⟨grown, orInvalid_eq_ok.mpr hpush, ?_⟩
        refine ih.mpr ⟨new, others, Nat.succ.inj hlen, ?_, hothers, rfl⟩
        rw [hitems, hgrown, List.append_assoc, List.singleton_append]

omit [Minicbor] in
theorem parseItems_empty_eq_ok (hitem : Reads item value) {count : Nat} {items : HVec α N}
    {input rest : Bytes} : parseItems item full count HVec.empty input = .ok (items, rest) ↔
      items.toList.length = count ∧
        ∃ bytes, EncodesAll (items.toList.map value) bytes ∧ input = bytes ++ rest := by
  rw [parseItems_eq_ok hitem]
  constructor
  · rintro ⟨new, bytes, hlen, hitems, henc, hinput⟩
    rw [HVec.toList_empty, List.nil_append] at hitems
    rw [hitems]
    exact ⟨hlen, bytes, henc, hinput⟩
  · rintro ⟨hlen, bytes, henc, hinput⟩
    exact ⟨items.toList, bytes, hlen, rfl, henc, hinput⟩

-- `parse_edges` and `parse_quotas`.
theorem reads_list (hitem : Reads item value) {notArray indefinite tooMany : String}
    {parse : Bytes → Result (HVec α N × Bytes)}
    (hparse : ∀ input, parse input = do
      let (len, input) ← orInvalid notArray (Minicbor.array input)
      let len ← orInvalid indefinite len
      if len > N then .error (.manifestInvalid tooMany)
      else parseItems item full len HVec.empty input) :
    Reads parse fun items => .array (items.toList.map value) := by
  intro input items rest
  rw [hparse]
  constructor
  · intro h
    obtain ⟨⟨announced, afterLen⟩, hlen, hstep⟩ := bind_eq_ok.mp h
    obtain ⟨len, hdefinite, hloop⟩ := bind_eq_ok.mp hstep
    obtain rfl : announced = some len := orInvalid_eq_ok.mp hdefinite
    split at hloop
    · cases hloop
    obtain ⟨header, hheader, rfl⟩ := orInvalid_array.mp hlen
    obtain ⟨rfl, body, hbody, rfl⟩ := (parseItems_empty_eq_ok hitem).mp hloop
    refine ⟨header ++ body, encodes_array.mpr ⟨header, body, ?_, hbody, rfl⟩, ?_⟩
    · rw [List.length_map]
      exact hheader
    · rw [List.append_assoc]
  · rintro ⟨bytes, henc, rfl⟩
    obtain ⟨header, body, hheader, hbody, rfl⟩ := encodes_array.mp henc
    rw [List.length_map] at hheader
    rw [List.append_assoc]
    refine bind_eq_ok.mpr ⟨_, orInvalid_array.mpr ⟨header, hheader, rfl⟩, ?_⟩
    refine bind_eq_ok.mpr ⟨_, orInvalid_eq_ok.mpr rfl, ?_⟩
    rw [if_neg (Nat.not_lt.mpr items.length_le)]
    exact (parseItems_empty_eq_ok hitem).mpr ⟨rfl, body, hbody, rfl⟩

end Items

theorem reads_parseEdges :
    Reads parseEdges fun edges => .array (edges.toList.map EdgeDecl.value) :=
  reads_list reads_parseEdge fun _ => rfl

theorem reads_parseQuotas :
    Reads parseQuotas fun quotas => .array (quotas.toList.map QuotaDecl.value) :=
  reads_list reads_parseQuota fun _ => rfl

-- An accepted payload starts with an encoding of the manifest, whatever follows.
theorem parseCbor_eq_ok {payload : Bytes} {manifest : Manifest} :
    parseCbor payload = .ok manifest ↔
      ∃ bytes rest, Encodes manifest.value bytes ∧ payload = bytes ++ rest := by
  constructor
  · intro h
    obtain ⟨⟨len, afterLen⟩, hlen, h1⟩ := bind_eq_ok.mp h
    dsimp only at h1
    split at h1
    · cases h1
    rename_i hthree
    obtain rfl := not_not.mp hthree
    obtain ⟨⟨version, afterVersion⟩, hversion, h2⟩ := bind_eq_ok.mp h1
    obtain ⟨⟨edges, afterEdges⟩, hedges, h3⟩ := bind_eq_ok.mp h2
    obtain ⟨⟨quotas, afterQuotas⟩, hquotas, h4⟩ := bind_eq_ok.mp h3
    obtain rfl := Except.ok.inj h4
    obtain ⟨header, hheader, rfl⟩ := orInvalid_array.mp hlen
    obtain ⟨first, hfirst, rfl⟩ := orInvalid_u32.mp hversion
    obtain ⟨second, hsecond, rfl⟩ := (reads_parseEdges _ _ _).mp hedges
    obtain ⟨third, hthird, rfl⟩ := (reads_parseQuotas _ _ _).mp hquotas
    refine ⟨header ++ (first ++ (second ++ third)), afterQuotas, ?_, ?_⟩
    · refine encodes_array.mpr ⟨header, _, hheader, ?_, rfl⟩
      exact .uint hfirst (encodesAll_cons.mpr ⟨second, third, hsecond, hthird, rfl⟩)
    · simp only [List.append_assoc]
  · rintro ⟨bytes, rest, henc, rfl⟩
    obtain ⟨header, body, hheader, hbody, rfl⟩ := encodes_array.mp henc
    obtain ⟨first, body', hfirst, hbody', rfl⟩ := encodesAll_cons.mp hbody
    obtain ⟨second, third, hsecond, hthird, rfl⟩ := encodesAll_cons.mp hbody'
    simp only [List.append_assoc]
    refine bind_eq_ok.mpr ⟨_, orInvalid_array.mpr ⟨header, hheader, rfl⟩, ?_⟩
    dsimp only
    rw [if_neg (by simp)]
    refine bind_eq_ok.mpr ⟨_, orInvalid_u32.mpr ⟨first, encodes_uint.mp hfirst, rfl⟩, ?_⟩
    refine bind_eq_ok.mpr ⟨_, (reads_parseEdges _ _ _).mpr ⟨second, hsecond, rfl⟩, ?_⟩
    exact bind_eq_ok.mpr ⟨_, (reads_parseQuotas _ _ _).mpr ⟨third, hthird, rfl⟩, rfl⟩

-- Every encoding of a manifest, in whatever widths, is parsed to that manifest.
theorem parseCbor_encoding (version : UInt32) (edges : List EdgeDecl) (quotas : List QuotaDecl)
    (hedges : edges.length ≤ MAX_EDGES) (hquotas : quotas.length ≤ MAX_NODES) (payload : Bytes)
    (henc : Encodes (.array [.uint version.toNat, .array (edges.map EdgeDecl.value),
      .array (quotas.map QuotaDecl.value)]) payload) :
    parseCbor payload = .ok ⟨⟨edges, hedges⟩, ⟨quotas, hquotas⟩, version⟩ :=
  parseCbor_eq_ok.mpr ⟨payload, [], henc, (List.append_nil _).symm⟩

-- What is accepted is an encoding in its entirety exactly when nothing follows an
-- encoding that it starts with.
theorem parseCbor_entire_iff (payload : Bytes) :
    (∀ manifest, parseCbor payload = .ok manifest → Encodes manifest.value payload) ↔
      ∀ (manifest : Manifest) bytes rest, Encodes manifest.value bytes →
        payload = bytes ++ rest → rest = [] := by
  constructor
  · intro hentire manifest bytes rest henc hsplit
    have hwhole := hentire manifest (parseCbor_eq_ok.mpr ⟨bytes, rest, henc, hsplit⟩)
    rw [← List.append_nil payload] at hsplit
    exact (hwhole.unique henc rfl hsplit).2.2.symm
  · intro hnothing manifest hok
    obtain ⟨bytes, rest, henc, rfl⟩ := parseCbor_eq_ok.mp hok
    rw [hnothing manifest bytes rest henc rfl, List.append_nil]
    exact henc

end Parser

section

attribute [local instance] Cbor.reader

-- Version 1 in two bytes, one edge from node 1 to node 2 with node 2 in one byte, and
-- the outer length in one byte too.
theorem parseCbor_encoding_widths :
    parseCbor [0x98, 0x03, 0x19, 0x00, 0x01, 0x81, 0x82, 0x01, 0x18, 0x02, 0x80] =
      .ok ⟨⟨[⟨node1, node2⟩], by decide⟩, ⟨[], by decide⟩, 1⟩ := by
  apply parseCbor_encoding
  have hedge : Encodes (EdgeDecl.value ⟨node1, node2⟩) [0x82, 0x01, 0x18, 0x02] :=
    encodes_row.mpr ⟨[0x82], [0x01], [0x18, 0x02], ⟨2, [], .short (by decide), rfl⟩,
      ⟨1, [], .short (by decide), rfl⟩, ⟨24, [0x02], .wide .one (by decide), rfl⟩, rfl⟩
  have hversion : Header 0 1 [0x19, 0x00, 0x01] :=
    ⟨25, [0x00, 0x01], .wide .two (by decide), rfl⟩
  have hbody : EncodesAll [.uint 1, .array [EdgeDecl.value ⟨node1, node2⟩], .array []]
      [0x19, 0x00, 0x01, 0x81, 0x82, 0x01, 0x18, 0x02, 0x80] :=
    .uint hversion (.array ⟨1, [], .short (by decide), rfl⟩ hedge
      (.array ⟨0, [], .short (by decide), rfl⟩ .nil .nil))
  exact encodes_array.mpr ⟨[0x98, 0x03], _, ⟨24, [0x03], .wide .one (by decide), rfl⟩, hbody, rfl⟩

-- The empty manifest of version 0 with one byte more.
theorem trailing_byte_accepted :
    parseCbor [0x83, 0x00, 0x80, 0x80, 0x00] = .ok ⟨HVec.empty, HVec.empty, 0⟩ ∧
      ¬Encodes (Manifest.value ⟨HVec.empty, HVec.empty, 0⟩) [0x83, 0x00, 0x80, 0x80, 0x00] := by
  refine ⟨rfl, fun hentire => ?_⟩
  have hbody : EncodesAll [.uint 0, .array [], .array []] [0x00, 0x80, 0x80] :=
    .uint ⟨0, [], .short (by decide), rfl⟩ (.array ⟨0, [], .short (by decide), rfl⟩ .nil
      (.array ⟨0, [], .short (by decide), rfl⟩ .nil .nil))
  have henc : Encodes (Manifest.value ⟨HVec.empty, HVec.empty, 0⟩) [0x83, 0x00, 0x80, 0x80] :=
    encodes_array.mpr ⟨[0x83], _, ⟨3, [], .short (by decide), rfl⟩, hbody, rfl⟩
  have hrest := (hentire.unique henc rfl
    (show [0x83, 0x00, 0x80, 0x80, 0x00] ++ [] = [0x83, 0x00, 0x80, 0x80] ++ [0x00] from rfl)).2.2
  cases hrest

end

end ManifestDecoder

end LuxKernel.Boot
