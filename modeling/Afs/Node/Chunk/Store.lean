import Afs.Node.Dfs.Planner
import Mathlib.Data.List.AList

/-!
# `Node.Chunk.Store` — the copies of the local chunk store

Chunks are files of their own, `chunks/<id>` below the root of the store. The catalog has one record for every chunk of
the store: the chunk, the device that wrote the copy, where its file is, and whether the copy is still trusted. A copy
that is found to be damaged is quarantined, which is a change of its record.

This module has what a reader of a copy needs: the records, the path that a record may name, and the comparison of the
bytes of a file with the chunk. A file is its content; that it changes while it is read is left out. How the store
writes a batch and how it recovers the catalog from its file are not part of the model, and the hash is a parameter.
-/

namespace Afs.Node

/-! ## The catalog -/

/-- A copy is durable until it is found to be damaged. -/
inductive LocalChunkState
  | durable | quarantined
  deriving DecidableEq

/-- Where the bytes of a copy are. -/
inductive PhysicalLocation
  | perChunkFile (relativePath : String)

inductive PhysicalEncoding
  | raw

/-- The entry of the catalog for one local copy. -/
structure LocalChunkRecord where
  chunk : ChunkObject
  storedLength : UInt64
  storedChecksum : ContentDigest
  deviceId : String
  deviceEpoch : UInt64
  location : PhysicalLocation
  encoding : PhysicalEncoding
  state : LocalChunkState
  catalogRevision : UInt64

/-- The catalog in memory: the revision of its last transaction, and the record of each chunk. -/
structure LocalCatalog where
  revision : UInt64
  records : AList fun _ : ChunkId => LocalChunkRecord

def LocalCatalog.empty : LocalCatalog := ⟨0, ∅⟩

/-- The store of one device of a node. -/
structure LocalChunkStore where
  (nodeId deviceId : String)
  deviceEpoch : UInt64
  catalog : LocalCatalog

def ChunkStore.invalid (message : String) : Error := ⟨.nodeStorageInvalid, message⟩

/-- A copy of a chunk that is not what the catalog says. -/
def ChunkStore.corrupt (id : ChunkId) (detail : String) : Error :=
  ⟨.nodeTransferCorruptData, s!"local Chunk '{id.value}' {detail}"⟩

/-! ## The file of a copy -/

/-- The path of a chunk, relative to the root of the store. -/
def chunkPath (id : ChunkId) : String := s!"chunks/{id.value}"

/-- The record of a chunk that the store has just written. -/
def newRecord (store : LocalChunkStore) (revision : UInt64) (chunk : ChunkObject) : LocalChunkRecord where
  chunk
  storedLength := chunk.length
  storedChecksum := chunk.contentDigest
  deviceId := store.deviceId
  deviceEpoch := store.deviceEpoch
  location := .perChunkFile (chunkPath chunk.id)
  encoding := .raw
  state := .durable
  catalogRevision := revision

/-- `path_for_record`. A path of this form never leaves the chunk directory; the file is the one of the chunk. -/
def pathForRecord (record : LocalChunkRecord) : Result ChunkId :=
  match record.location with
  | .perChunkFile relativePath =>
    if relativePath ≠ chunkPath record.chunk.id then
      .error (ChunkStore.invalid "local chunk record has a non-canonical path")
    else .ok record.chunk.id

/-- The bytes of a file against the chunk: first the length, then the digest. -/
def verifyContent (blake3 : Bytes → Digest) (chunk : ChunkObject) : Option Bytes → Result Unit
  | none => .error (notFound "No such file or directory (os error 2)")
  | some bytes =>
    if UInt64.ofNat bytes.length ≠ chunk.length then .error (ChunkStore.corrupt chunk.id "length mismatch")
    else if (⟨.blake3, blake3 bytes⟩ : ContentDigest) ≠ chunk.contentDigest then
      .error (ChunkStore.corrupt chunk.id "digest mismatch")
    else .ok ()

end Afs.Node
