import LuxKernel.Boot.Cbor
import LuxKernel.Heapless.Containers

namespace LuxKernel.Boot

open Heapless

structure EdgeDecl where
  src : NodeId
  dst : NodeId
deriving DecidableEq, Repr

structure QuotaDecl where
  node : NodeId
  ceiling : Quota
deriving DecidableEq, Repr

structure Manifest where
  edges : HVec EdgeDecl MAX_EDGES
  quotas : HVec QuotaDecl MAX_NODES
  version : UInt32
deriving DecidableEq

namespace Manifest

def permitsEdge (manifest : Manifest) (src dst : NodeId) : Bool :=
  manifest.edges.toList.any fun e => decide (e.src = src) && decide (e.dst = dst)

def quotaFor (manifest : Manifest) (node : NodeId) : Option Quota :=
  (manifest.quotas.toList.find? fun q => decide (q.node = node)).map QuotaDecl.ceiling

end Manifest

def SIG_LEN : Nat := 64
def MIN_WIRE_LEN : Nat := 65

-- The signature check is a black box: an HSM provider with a key.
structure BootCredentials where
  verify : Bytes → Vector UInt8 64 → Result Unit

-- `.map_err(|_| Error::ManifestInvalid { detail })?` and `.ok_or(..)?`.
def orInvalid {α : Type} (detail : String) : Option α → Result α
  | some a => .ok a
  | none => .error (.manifestInvalid detail)

namespace ManifestDecoder

-- The loops of `parse_edges` and `parse_quotas`.
def parseItems {α : Type} {N : Nat} (item : Bytes → Result (α × Bytes)) (full : String) :
    Nat → HVec α N → Bytes → Result (HVec α N × Bytes)
  | 0, items, input => .ok (items, input)
  | count + 1, items, input => do
      let (next, rest) ← item input
      let items ← orInvalid full (items.push next)
      parseItems item full count items rest

variable [Minicbor]

def parseEdge (input : Bytes) : Result (EdgeDecl × Bytes) := do
  let (edgeLen, input) ← orInvalid "edge is not a CBOR array" (Minicbor.array input)
  if edgeLen ≠ some 2 then .error (.manifestInvalid "each edge must be [src, dst]")
  else do
    let (srcRaw, input) ← orInvalid "edge src is not uint32" (Minicbor.u32 input)
    let (dstRaw, input) ← orInvalid "edge dst is not uint32" (Minicbor.u32 input)
    let src ← orInvalid "edge src must be non-zero" (NodeId.new srcRaw)
    let dst ← orInvalid "edge dst must be non-zero" (NodeId.new dstRaw)
    return (⟨src, dst⟩, input)

def parseEdges (input : Bytes) : Result (HVec EdgeDecl MAX_EDGES × Bytes) := do
  let (len, input) ← orInvalid "edges is not a CBOR array" (Minicbor.array input)
  let len ← orInvalid "edges array must have definite length" len
  if len > MAX_EDGES then .error (.manifestInvalid "too many edges")
  else parseItems parseEdge "edge list capacity exceeded" len HVec.empty input

def parseQuota (input : Bytes) : Result (QuotaDecl × Bytes) := do
  let (qLen, input) ← orInvalid "quota entry is not a CBOR array" (Minicbor.array input)
  if qLen ≠ some 2 then .error (.manifestInvalid "each quota must be [node, ceiling]")
  else do
    let (nodeRaw, input) ← orInvalid "quota node is not uint32" (Minicbor.u32 input)
    let (ceilingRaw, input) ← orInvalid "quota ceiling is not uint64" (Minicbor.u64 input)
    let node ← orInvalid "quota node must be non-zero" (NodeId.new nodeRaw)
    return (⟨node, ⟨ceilingRaw⟩⟩, input)

def parseQuotas (input : Bytes) : Result (HVec QuotaDecl MAX_NODES × Bytes) := do
  let (len, input) ← orInvalid "quotas is not a CBOR array" (Minicbor.array input)
  let len ← orInvalid "quotas array must have definite length" len
  if len > MAX_NODES then .error (.manifestInvalid "too many quota entries")
  else parseItems parseQuota "quota list capacity exceeded" len HVec.empty input

-- Bytes after the outer array are not looked at.
def parseCbor (payload : Bytes) : Result Manifest := do
  let (outerLen, input) ← orInvalid "payload is not a CBOR array" (Minicbor.array payload)
  if outerLen ≠ some 3 then
    .error (.manifestInvalid "expected 3-element array [version, edges, quotas]")
  else do
    let (version, input) ← orInvalid "version is not a uint32" (Minicbor.u32 input)
    let (edges, input) ← parseEdges input
    let (quotas, _) ← parseQuotas input
    return ⟨edges, quotas, version⟩

-- The signature is verified before anything is parsed.
def decode (bytes : Bytes) (credentials : BootCredentials) : Result Manifest := do
  if bytes.length < MIN_WIRE_LEN then
    .error (.manifestInvalid "wire format too short (minimum 65 bytes)")
  else do
    let sig ← orInvalid "signature slice extraction failed"
      (if h : (bytes.take SIG_LEN).length = SIG_LEN then
        some (⟨(bytes.take SIG_LEN).toArray, h⟩ : Vector UInt8 64) else none)
    credentials.verify (bytes.drop SIG_LEN) sig
    parseCbor (bytes.drop SIG_LEN)

end ManifestDecoder

end LuxKernel.Boot
