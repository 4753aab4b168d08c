import IcsDeception.Decompression
import IcsDeception.Lib.Method

/-!
# Decryption into a file

`decrypt_archive` with the files it works on: the archive, the destination, and the two
scratch files that are made beside the destination. The plaintext goes to one scratch file
and is renamed onto the destination when everything is checked; the authenticated compressed
bytes go to the other.

## Implementation notes

A call may fail at any time, and a failed call that writes may leave any content in the file
it writes. Unlinking a file is taken to succeed. The log of calls is no part of the file
system: it is kept to say what happened in a run. The loop over the reads of the compressed
file and the loop of the decompressor run on fuel; when it is used up the run is cut short by
an exception, as it may be at any time.
-/

namespace IcsDeception

open Text Canonicalizer

/-- The calls that a decryption makes on files. -/
inductive FileOp (Path : Type)
  | isFile (p : Path)
  | size (p : Path)
  | present (p : Path)
  | mkdir
  | mkstemp
  /-- `os.close` of the descriptor of a new file. -/
  | close (p : Path)
  | chmod (p : Path)
  | openZip (p : Path)
  | readManifest
  | openMember
  | readMember (e : Archive.ZipEntry) (offset n : Nat)
  | openWrite (p : Path)
  | write (p : Path) (b : Bytes)
  /-- `flush`, `os.fsync` and the `close` of a file that was written. -/
  | sync (p : Path)
  | openRead (p : Path)
  | read (p : Path) (offset n : Nat)
  | unlink (p : Path)
  | replace (source target : Path)

namespace FileOp

variable {Path : Type}

/-- What a call returns. -/
@[reducible] def Result : FileOp Path → Type
  | isFile _ => Bool
  | size _ => Nat
  | present _ => Bool
  | mkstemp => Path
  | openZip _ => List Archive.ZipEntry
  | readMember _ _ _ => Bytes
  | read _ _ _ => Bytes
  | mkdir => Unit
  | close _ => Unit
  | chmod _ => Unit
  | readManifest => Unit
  | openMember => Unit
  | openWrite _ => Unit
  | write _ _ => Unit
  | sync _ => Unit
  | openRead _ => Unit
  | unlink _ => Unit
  | replace _ _ => Unit

/-- The file that a call writes. -/
def target : FileOp Path → Option Path
  | openWrite p => some p
  | write p _ => some p
  | sync p => some p
  | _ => none

variable [DecidableEq Path]

/-- What a call does when it succeeds. The container library reads an archive. -/
def Done (unzip : Bytes → Option (List Archive.ZipEntry)) :
    (op : FileOp Path) → (Path → Option Bytes) → op.Result → (Path → Option Bytes) → Prop
  | isFile p, f, found, g => found = (f p).isSome ∧ g = f
  | size p, f, n, g => (f p).map List.length = some n ∧ g = f
  | present p, f, found, g => found = (f p).isSome ∧ g = f
  | mkstemp, f, p, g => f p = none ∧ g = Function.update f p (some [])
  | openZip p, f, entries, g => (f p).bind unzip = some entries ∧ g = f
  | readMember e offset n, f, data, g =>
      (∃ content, e.read = .ok content ∧ data = (content.drop offset).take n) ∧ g = f
  | read p offset n, f, data, g =>
      (∃ content, f p = some content ∧ data = (content.drop offset).take n) ∧ g = f
  | openWrite p, f, _, g => g = Function.update f p (some [])
  | write p b, f, _, g =>
      ∃ content, f p = some content ∧ g = Function.update f p (some (content ++ b))
  | unlink p, f, _, g => g = Function.update f p none
  | replace p q, f, _, g =>
      ∃ content, f p = some content ∧
        g = Function.update (Function.update f p none) q (some content)
  | mkdir, f, _, g => g = f
  | close _, f, _, g => g = f
  | chmod _, f, _, g => g = f
  | readManifest, f, _, g => g = f
  | openMember, f, _, g => g = f
  | sync _, f, _, g => g = f
  | openRead _, f, _, g => g = f

/-- What a call does when it fails. Unlinking does not fail. -/
def Fault (op : FileOp Path) (f g : Path → Option Bytes) : Prop :=
  (∀ p, op ≠ unlink p) ∧
    (g = f ∨ ∃ p content, op.target = some p ∧ g = Function.update f p (some content))

end FileOp

/-- The files, and the calls so far with whether they succeeded. -/
structure Files (Path : Type) where
  content : Path → Option Bytes
  log : List (FileOp Path × Bool)

/-- The interface of the calls. -/
abbrev FileCalls (Path : Type) : Interface :=
  Interface.fallible (FileOp Path) ArchiveExn FileOp.Result

/-- How files answer a call. -/
def Files.Answers {Path : Type} [DecidableEq Path]
    (unzip : Bytes → Option (List Archive.ZipEntry)) (op : FileOp Path) (s : Files Path)
    (r : Except ArchiveExn op.Result) (t : Files Path) : Prop :=
  match r with
  | .ok a => op.Done unzip s.content a t.content ∧ t.log = s.log ++ [(op, true)]
  | .error _ => op.Fault s.content t.content ∧ t.log = s.log ++ [(op, false)]

/-- The world of files. No run is cut off by a crash. -/
def Files.world {Path : Type} [DecidableEq Path]
    (unzip : Bytes → Option (List Archive.ZipEntry)) : World (FileCalls Path) (Files Path) where
  answers := Files.Answers unzip
  tears _ _ _ := False

/-- A function that works on files. -/
abbrev Script (Path : Type) := Method (FileCalls Path) ArchiveExn Unit

/-- A streaming AES-GCM decryptor. -/
structure Decryptor where
  State : Type
  start : State
  update : State → Bytes → Bytes × State
  /-- `finalize_with_tag`, which may raise. -/
  finalize : State → Bytes → Option Bytes

/-- The output of a decryptor for pieces of input, and its state behind them. -/
def Decryptor.run (c : Decryptor) : c.State → List Bytes → Bytes × c.State
  | s, [] => ([], s)
  | s, chunk :: rest =>
      ((c.update s chunk).1 ++ (c.run (c.update s chunk).2 rest).1,
        (c.run (c.update s chunk).2 rest).2)

/-- The libraries of a decryption in pieces. -/
structure StreamCrypto where
  crypto : ArchiveCrypto
  decryptor : Bytes → Bytes → Bytes → Decryptor
  inflater : Inflater UInt8 UInt8
  /-- In pieces or at once, AES-GCM gives the same. -/
  opens : ∀ key nonce aad chunks tag,
    ((decryptor key nonce aad).finalize
        ((decryptor key nonce aad).run (decryptor key nonce aad).start chunks).2 tag).map
      (((decryptor key nonce aad).run (decryptor key nonce aad).start chunks).1 ++ ·) =
    crypto.decrypt key nonce aad chunks.flatten tag

namespace Archive

open Method

variable {Path : Type}

/-- A call on files. -/
def file (op : FileOp Path) : Script Path op.Result := call op

/-- The exception that cuts a run short. -/
def interrupted : ArchiveExn := .passed .osError

/-- Write pieces one after another. -/
def writeAll (target : Path) : List Bytes → Script Path Unit
  | [] => pure ()
  | b :: rest => do
      file (.write target b)
      writeAll target rest

/-- Write what a part of the pass has emitted, and take its result. -/
def emit {α : Type} (target : Path) : Option (Emitted α) → Script Path α
  | none => raise interrupted
  | some e => do
      writeAll target e.writes
      ofExcept e.result

/-- The loop of pass one over the ciphertext. Every read gets a byte at least, so that the
fuel is what remains. -/
def updateLoop (c : Decryptor) (info : ZipEntry) (target : Path) :
    Nat → Nat → Nat → c.State → Script Path c.State
  | 0, _, _, s => pure s
  | fuel + 1, remaining, offset, s =>
      if remaining = 0 then pure s
      else do
        let chunk ← file (.readMember info offset (min chunkBytes remaining))
        if chunk = [] then raise (.archive .truncated)
        else do
          file (.write target (c.update s chunk).1)
          updateLoop c info target fuel (remaining - chunk.length) (offset + chunk.length)
            (c.update s chunk).2

/-- Pass one of `_stream_decrypt`. Whatever goes wrong with the tag is an authentication
failure. -/
def firstPass (c : Decryptor) (info : ZipEntry) (target : Path) : Script Path Unit := do
  let bodyLength := info.fileSize - gcmTagBytes
  file .openMember
  file (.openWrite target)
  let s ← updateLoop c info target bodyLength bodyLength 0 c.start
  let tag ← file (.readMember info bodyLength gcmTagBytes)
  ofExcept (archiveCheck (tag.length = gcmTagBytes) .truncated)
  match c.finalize s tag with
  | none => raise (.archive .authenticationFailed)
  | some rest => do
      let r ← attempt (file (.write target rest))
      ofExcept (r.mapError fun _ => .archive .authenticationFailed)
      file (.sync target)

/-- The loop of pass two over the compressed file. -/
def inflateLoop {d : Inflater UInt8 UInt8} (maxPlaintextBytes : Int) (fuel : Nat)
    (source target : Path) : Nat → Nat → Pass d → Script Path (Pass d)
  | 0, _, _ => raise interrupted
  | reads + 1, offset, p => do
      let chunk ← file (.read source offset chunkBytes)
      if chunk = [] then pure p
      else do
        let p ← emit target (p.drain maxPlaintextBytes fuel chunk)
        inflateLoop maxPlaintextBytes fuel source target reads (offset + chunk.length) p

/-- Pass two of `_stream_decrypt`, on its files. -/
def secondPassOn (py : Interp) (d : Inflater UInt8 UInt8) (maxPlaintextBytes : Int) (fuel : Nat)
    (source target : Path) : Script Path (Nat × Str) := do
  file (.openRead source)
  let p ← inflateLoop maxPlaintextBytes fuel source target fuel 0 (Pass.start d)
  emit target (p.finish py maxPlaintextBytes)

/-- `with contextlib.suppress(OSError): os.unlink(path)`. -/
def discard (p : Path) : Script Path Unit :=
  suppress (fun e => e = .passed .osError) (file (.unlink p))

/-- A new scratch file, protected before anything is written to it. -/
def newScratch : Script Path Path := do
  let p ← file .mkstemp
  file (.close p)
  file (.chmod p)
  return p

/-- `_stream_decrypt`. -/
def streamDecrypt (py : Interp) (lib : StreamCrypto) (fuel : Nat) (info : ZipEntry)
    (manifest : ArchiveManifest) (aesKey nonce : Bytes) (maxPlaintextBytes : Int) (plain : Path) :
    Script Path (Nat × Str) := do
  let aad ← ofExcept (ArchiveExn.lift manifest.authenticatedData)
  let compressed ← newScratch
  let r ← attempt (do
    firstPass (lib.decryptor aesKey nonce aad) info compressed
    secondPassOn py lib.inflater maxPlaintextBytes fuel compressed plain)
  discard compressed
  ofExcept r

/-- The `try` block of `decrypt_archive` up to the comparison with the manifest. -/
def decryptInto (py : Interp) (lib : StreamCrypto) (fuel : Nat) (source : Path)
    (privateKey : Bytes) (maxArchiveBytes maxPlaintextBytes : Int) (plain : Path) :
    Script Path ArchiveManifest := do
  let entries ← file (.openZip source)
  file .readManifest
  let (manifest, info) ← ofExcept (readManifestAndOpenCiphertext py entries maxArchiveBytes)
  let (aesKey, nonce) ← ofExcept (deriveKey py lib.crypto manifest privateKey)
  file (.openWrite plain)
  let (written, digest) ← streamDecrypt py lib fuel info manifest aesKey nonce maxPlaintextBytes
    plain
  file (.sync plain)
  ofExcept (archiveCheck (isText manifest.plaintextSha3 digest &&
    (written : Int) = manifest.plaintextLength) .digestMismatch)
  return manifest

/-- The rename onto the destination. -/
def publish (plain : Path) : Option Path → Script Path Unit
  | none => pure ()
  | some d => do
      file (.replace plain d)
      file (.chmod d)

/-- A destination that exists is refused, unless it may be overwritten. -/
def refuseExisting (overwrite : Bool) : Option Path → Script Path Unit
  | none => pure ()
  | some d => do
      let there ← file (.present d)
      ofExcept (archiveCheck (!there || overwrite) .destinationExists)

/-- A damaged container is an archive that is truncated. -/
def asTruncated : ArchiveExn → ArchiveExn
  | .badZipFile => .archive .truncated
  | e => e

/-- `decrypt_archive`, on its files. -/
def decryptArchiveOn (py : Interp) (lib : StreamCrypto) (fuel : Nat) (source : Path)
    (privateKey : Bytes) (destination : Option Path) (maxArchiveBytes maxPlaintextBytes : Int)
    (overwrite : Bool) : Script Path (ArchiveManifest × Option Path) := do
  ofExcept (positive maxArchiveBytes)
  ofExcept (positive maxPlaintextBytes)
  let found ← file (.isFile source)
  ofExcept (archiveCheck found .notFound)
  let size ← file (.size source)
  ofExcept (archiveCheck ((size : Int) ≤ maxArchiveBytes) .oversized)
  refuseExisting overwrite destination
  file .mkdir
  let plain ← newScratch
  let r ← attempt (do
    let manifest ← decryptInto py lib fuel source privateKey maxArchiveBytes maxPlaintextBytes
      plain
    publish plain destination
    return manifest)
  match r with
  | .ok manifest =>
      match destination with
      | some d => return (manifest, some d)
      | none => do
          discard plain
          return (manifest, none)
  | .error e => do
      discard plain
      raise (asTruncated e)

end Archive

end IcsDeception
