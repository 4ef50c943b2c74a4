import Ftwdb.Lib.Crc32
import Ftwdb.Lib.Check
import Ftwdb.Model.Wire

/-!
# Manifests

A generation of the store is a file `MANIFEST.<generation>` that names the
rollup files and the raw segments which belong to it.  This module is
`manifest.rs`: the descriptors, their encoding and their checks, `load` with
its fall-back to older generations, `publish` and the pruning of old ones.

A directory of manifests is a map from generations to the bytes of their files.
Names are the ones `publish` gives, one for each generation.
-/

namespace Ftwdb

open ByteCodec Check

/-! ## Descriptors -/

/-- `RollupDescriptor`. -/
structure RollupDescriptor where
  file : String
  seriesId : UInt64
  resolution : RollupResolution
  start : Int64
  stop : Int64
  sourceCommit : UInt64
  sourcePoints : UInt64
  active : Bool
deriving DecidableEq

/-- A raw segment.  The generation is that of the seal checkpoint in the log. -/
structure RawSegmentDescriptor where
  file : String
  generation : UInt64
  points : UInt64
  sourceCommit : UInt64
  sourcePoints : UInt64
  minValidTime : Int64
  maxValidTime : Int64
  contentCrc32 : UInt32
deriving DecidableEq

/-- `Manifest`. -/
structure Manifest where
  generation : UInt64 := 0
  rollups : List RollupDescriptor := []
  segments : List RawSegmentDescriptor := []
deriving DecidableEq

/-! ## Encoding -/

namespace Postcard

open Codec

/-- The fields of a rollup descriptor. -/
def rollupDescriptor : Codec RollupDescriptor :=
  (pair string <| pair u64 <| pair rollupResolution <| pair i64 <| pair i64 <| pair u64 <|
    pair u64 bool).iso
    (fun (file, seriesId, resolution, start, stop, commit, points, active) =>
      ⟨file, seriesId, resolution, start, stop, commit, points, active⟩)
    (fun d => (d.file, d.seriesId, d.resolution, d.start, d.stop, d.sourceCommit, d.sourcePoints,
      d.active))
    fun _ => rfl

/-- The fields of a segment descriptor. -/
def rawSegmentDescriptor : Codec RawSegmentDescriptor :=
  (pair string <| pair u64 <| pair u64 <| pair u64 <| pair u64 <| pair i64 <| pair i64 u32).iso
    (fun (file, generation, points, commit, total, least, greatest, crc) =>
      ⟨file, generation, points, commit, total, least, greatest, crc⟩)
    (fun d => (d.file, d.generation, d.points, d.sourceCommit, d.sourcePoints, d.minValidTime,
      d.maxValidTime, d.contentCrc32))
    fun _ => rfl

/-- The fields of a manifest. -/
def manifest : Codec Manifest :=
  (pair u64 <| pair (list rollupDescriptor) (list rawSegmentDescriptor)).iso
    (fun (generation, rollups, segments) => ⟨generation, rollups, segments⟩)
    (fun m => (m.generation, m.rollups, m.segments)) fun _ => rfl

/-- `ManifestV1` -/
def manifestV1 : Codec (UInt64 × List RollupDescriptor) := pair u64 (list rollupDescriptor)

/-- `RawSegmentDescriptorV2` -/
def rawSegmentDescriptorV2 :
    Codec (String × UInt64 × UInt64 × UInt64 × UInt64 × Int64 × Int64) :=
  pair string <| pair u64 <| pair u64 <| pair u64 <| pair u64 <| pair i64 i64

/-- `ManifestV2` -/
def manifestV2 : Codec (UInt64 × List RollupDescriptor ×
    List (String × UInt64 × UInt64 × UInt64 × UInt64 × Int64 × Int64)) :=
  pair u64 <| pair (list rollupDescriptor) (list rawSegmentDescriptorV2)

end Postcard

namespace Manifest

/-! ## Checks -/

/-- `Path::components` has one component and it is a name: no leading slash, no
`.` or `..` in front, and nothing but slashes and `.` behind. -/
def isSafeFilename (file : String) : Bool :=
  match file.toList.splitOn '/' with
  | [] => false
  | first :: rest =>
    decide (first ≠ [] ∧ first ≠ ['.'] ∧ first ≠ ['.', '.']) &&
      rest.all fun part => decide (part = [] ∨ part = ['.'])

/-- `validate_safe_filename`. -/
def validateSafeFilename (file label : String) : Except String Unit :=
  failIf (isSafeFilename file = false) (label ++ " must be a single safe path component")

/-- The rollups: safe names, no file twice, a series and a range. -/
def validateRollups : List String → List RollupDescriptor → Except String Unit
  | _, [] => .ok ()
  | files, d :: rest => do
      validateSafeFilename d.file "manifest rollup filename"
      failIf (d.file ∈ files ∨ d.seriesId = 0 ∨ d.stop ≤ d.start)
        "manifest rollup descriptor has a duplicate file, invalid identity, or invalid bounds"
      validateRollups (d.file :: files) rest

/-- The loop over the segments.  Distinct generations follow from increasing ones. -/
def validateSegments (generation : UInt64) :
    List String → UInt64 → Nat → List RawSegmentDescriptor → Except String Unit
  | _, _, _, [] => .ok ()
  | files, previous, cumulative, d :: rest => do
      validateSafeFilename d.file "manifest raw segment filename"
      failIf (2 ^ 64 ≤ cumulative + d.points.toNat) "manifest raw segment point count overflows"
      failIf (d.file ∈ files ∨ d.generation = 0 ∨ d.generation ≤ previous ∨
          generation < d.generation ∨ d.points = 0 ∨
          d.sourcePoints.toNat ≠ cumulative + d.points.toNat ∨ d.maxValidTime < d.minValidTime)
        "manifest raw segment descriptor has invalid order, identity, or coverage"
      validateSegments generation (d.file :: files) d.generation (cumulative + d.points.toNat) rest

/-- `validate`. -/
def validate (m : Manifest) : Except String Unit := do
  validateRollups [] m.rollups
  validateSegments m.generation [] 0 0 m.segments

/-! ## Files -/

/-- `MAGIC`. -/
def magic : Bytes := [0x57, 0x4d, 0x41, 0x4e, 0x30, 0x30, 0x30, 0x31]

/-- `VERSION_V1`, without segments. -/
def versionV1 : UInt16 := 1

/-- `VERSION_V2`, segments without a checksum. -/
def versionV2 : UInt16 := 2

/-- `VERSION`. -/
def version : UInt16 := 3

/-- `HEADER_BYTES`. -/
def headerBytes : Nat := 24

/-- `MAX_PAYLOAD_BYTES`. -/
def maxPayloadBytes : Nat := 64 * 1024 * 1024

/-- The header in front of a payload, without its own checksum. -/
def headerFields (payload : Bytes) : Bytes :=
  magic ++ (leU16 version ++ ([0, 0] ++ (leU32 (UInt32.ofNat payload.length) ++
    leU32 (Crc32.hash payload))))

/-- The file of a manifest with this payload. -/
def fileBytes (payload : Bytes) : Bytes :=
  headerFields payload ++ (leU32 (Crc32.hash (headerFields payload)) ++ payload)

/-- The bytes `publish` writes, or why it writes none. -/
def encodeFile (m : Manifest) : Except Error Bytes := do
  m.validate.mapError Error.invalidModel
  let payload := Postcard.manifest.encode m
  failIf (maxPayloadBytes < payload.length) (Error.serialization "manifest exceeds 64 MiB")
  failIf (2 ^ 32 ≤ payload.length) (Error.serialization "manifest exceeds u32 length")
  .ok (fileBytes payload)

/-- The payload of a manifest of some version. -/
def decodePayload (payload : Bytes) (fileVersion : UInt16) : Except Error Manifest :=
  let failed := Error.corruption 0 "manifest payload is invalid"
  if fileVersion = versionV1 then
    match Postcard.manifestV1.fromBytes payload with
    | none => .error failed
    | some (generation, rollups) => .ok ⟨generation, rollups, []⟩
  else if fileVersion = versionV2 then
    match Postcard.manifestV2.fromBytes payload with
    | none => .error failed
    | some (generation, rollups, segments) =>
      if segments ≠ [] then
        .error (.invalidConfig "development v2 raw segments lack a content checksum; restore a pre-seal snapshot or use a fresh shadow store")
      else .ok ⟨generation, rollups, []⟩
  else
    match Postcard.manifest.fromBytes payload with
    | none => .error failed
    | some m => .ok m

/-- `read_manifest`, of a file that can be opened. -/
def read (bytes : Bytes) (expected : UInt64) : Except Error Manifest := do
  let corrupt := Error.corruption 0
  failIf (bytes.length < headerBytes) (corrupt "manifest is too small")
  failIf (slice bytes 0 8 ≠ magic) (corrupt "invalid manifest magic")
  let fileVersion := readU16 (slice bytes 8 10)
  failIf (fileVersion ≠ version ∧ fileVersion ≠ versionV1 ∧ fileVersion ≠ versionV2)
    (corrupt "unsupported manifest version")
  failIf (Crc32.hash (slice bytes 0 20) ≠ readU32 (slice bytes 20 24))
    (corrupt "manifest header checksum mismatch")
  failIf (slice bytes 10 12 ≠ [0, 0]) (corrupt "manifest reserved flags are non-zero")
  let payloadLen := (readU32 (slice bytes 12 16)).toNat
  failIf (maxPayloadBytes < payloadLen ∨ bytes.length ≠ headerBytes + payloadLen)
    (corrupt "invalid manifest length")
  let payload := bytes.drop headerBytes
  failIf (Crc32.hash payload ≠ readU32 (slice bytes 16 20))
    (corrupt "manifest payload checksum mismatch")
  let m ← decodePayload payload fileVersion
  failIf (m.generation ≠ expected) (corrupt "manifest generation does not match its filename")
  m.validate.mapError fun reason =>
    corrupt ("manifest descriptors are invalid: invalid energy model: " ++ reason)
  .ok m

end Manifest

/-! ## The directory of manifests -/

/-- The manifest directory by generation. -/
abbrev Manifests := Std.ExtTreeMap UInt64 Bytes

namespace Manifests

/-- `generation_candidates`: every file, newest first. -/
def candidates (dir : Manifests) : List (UInt64 × Bytes) := dir.toList.reverse

/-- The first candidate that can be read.  An unsupported development format
ends the search. -/
def loadFirst : Option Error → List (UInt64 × Bytes) → Except Error Manifest
  | last, [] => .error (last.getD (.corruption 0 "no valid manifest generation"))
  | _, (generation, bytes) :: rest =>
    match Manifest.read bytes generation with
    | .ok m => .ok m
    | .error (.invalidConfig reason) => .error (.invalidConfig reason)
    | .error e => loadFirst (some e) rest

/-- `load`: the newest manifest that can be read. -/
def load (dir : Manifests) : Except Error Manifest :=
  match dir.candidates with
  | [] => .ok {}
  | cs => loadFirst none cs

/-- What the system does while a manifest is written: the new name appears with
the link, and a later failure leaves it. -/
inductive PublishIo where
  | done
  | failsBeforeLink
  | failsAfterLink
deriving DecidableEq

/-- `publish`: a new file under a new generation. -/
def publish (dir : Manifests) (m : Manifest) (io : PublishIo) : Except Error Unit × Manifests :=
  match m.encodeFile with
  | .error e => (.error e, dir)
  | .ok bytes =>
    if m.generation ∈ dir then (.error .io, dir)
    else
      match io with
      | .done => (.ok (), dir.insert m.generation bytes)
      | .failsBeforeLink => (.error .io, dir)
      | .failsAfterLink => (.error .io, dir.insert m.generation bytes)

/-- Older generations kept beside the newest file. -/
def retainedFallbackGenerations : Nat := 2

/-- The files `prune_generations` keeps, newest first: the newest ones by name,
and the generation that was loaded. -/
def retained (dir : Manifests) (loaded : UInt64) : List (UInt64 × Bytes) :=
  let window := 1 + retainedFallbackGenerations
  dir.candidates.take window ++
    (dir.candidates.drop window).filter fun (generation, _) => generation = loaded

/-- The directory behind `prune_generations`; `stuck` are the files that cannot
be removed. -/
def prune (dir : Manifests) (loaded : UInt64) (stuck : List UInt64) : Manifests :=
  let keep := (dir.retained loaded).map Prod.fst
  dir.filter fun generation _ => decide (generation ∈ keep ∨ generation ∈ stuck)

/-- The manifests of the retained files; an error if one cannot be read. -/
def readAll (files : List (UInt64 × Bytes)) : Except Error (List Manifest) :=
  files.mapM fun (generation, bytes) => Manifest.read bytes generation

end Manifests

end Ftwdb
