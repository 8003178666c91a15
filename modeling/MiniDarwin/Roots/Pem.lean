import MiniDarwin.Data.Base64
import MiniDarwin.Rootfs.Schema

/-!
The bundle of trusted roots that `roots-to-pem.py` prints.

The two JSON files are what `json.load ()` returns of them, and the
directory is a list of its files. The script prints as it goes: what it has
printed before it exits with a message is left out.
-/

namespace MiniDarwin.Roots

open Data
open Rootfs (Text lit decimal Digest)

/-- What is under `certificates`. -/
structure Certificates where
  roots : List (Text × List UInt8)
  /-- The keys of `system` in `constraints.json`. -/
  system : List Text
  humanNames : List (Text × Text)

/-- What `sys.exit ()` says. -/
inductive Exit where
  | unexpected (name : Text)
  | stale (digests : List Text)
  | mismatch (name : Text)
  | unnamed (name : Text)
  deriving DecidableEq

/-- `hexdigest ().upper ()` -/
def upper (d : Digest) : Text := d.text.map fun c => if 97 ≤ c ∧ c ≤ 122 then c - 32 else c

/-- `name[:-4]` -/
def stem (name : Text) : Text := name.take (name.length - 4)

/-- `os.listdir ()`, sorted. -/
def Certificates.listing (s : Certificates) : List (Text × List UInt8) := s.roots.insertionSort fun a b => a.1 ≤ b.1

def beginLine : Text := lit "-----BEGIN CERTIFICATE-----"

def endLine : Text := lit "-----END CERTIFICATE-----"

/-- The lines of a certificate. -/
def certificate (human digest : Text) (der : List UInt8) : List Text :=
  [[], lit "# " ++ human, lit "# SHA-256 " ++ digest, beginLine] ++ Base64.chunks 64 (Base64.encode der) ++ [endLine]

variable (sha256 : List UInt8 → Digest)

/-- The loop over the roots. -/
def certificates (s : Certificates) : List (Text × List UInt8) → Except Exit (List (List Text))
  | [] => .ok []
  | (name, der) :: rest =>
      if stem name ∈ s.system then certificates s rest
      else if upper (sha256 der) ≠ stem name then .error (.mismatch name)
      else
        match s.humanNames.lookup (stem name) with
        | none => .error (.unnamed name)
        | some human => return certificate human (stem name) der :: (← certificates s rest)

/-- What `main ()` prints, and its report. -/
structure Bundle where
  out : Text
  report : Text

def main (s : Certificates) (tag : Text) : Except Exit Bundle := do
  let roots := s.listing
  match roots.find? fun r => !(lit ".cer").isSuffixOf r.1 with
  | some r => throw (.unexpected r.1)
  | none => pure ()
  let constrained := s.system.dedup
  let stale := constrained.filter fun d => d ∉ roots.map (stem ·.1)
  unless stale = [] do throw (.stale (stale.insertionSort (· ≤ ·)))
  let head := [lit "# Trusted roots of Apple's " ++ tag ++ lit " (certificates/roots),",
    lit "# less the " ++ decimal constrained.length ++ lit " that constraints.json restricts to Apple policies."]
  let written ← certificates sha256 s roots
  return {
    out := (head ++ written.flatten).flatMap (· ++ [10])
    report := lit "roots-to-pem: " ++ decimal written.length ++ lit " roots, " ++ decimal constrained.length ++
      lit " left out" }

end MiniDarwin.Roots
