import Playground.Config.Basic

/-! Values kept for a while under keys. What has a lifetime of zero is never served. -/

namespace Playground

structure TimedCache (α : Type) where
  lifetime : Nat
  entries : List (String × α)

namespace TimedCache

variable {α : Type}

/-- A thousand years. -/
def longestLifetime : Nat := 1000 * 365 * 24 * 3600

def new? (lifetime : Nat) : Option (TimedCache α) :=
  if lifetime ≤ longestLifetime then some ⟨lifetime, []⟩ else none

def get? (c : TimedCache α) (key : String) : Option α :=
  if c.lifetime = 0 then none else c.entries.lookup key

def insert (c : TimedCache α) (key : String) (value : α) : TimedCache α :=
  { c with entries := upsert key value c.entries }

def clear (c : TimedCache α) : TimedCache α := { c with entries := [] }

end TimedCache

end Playground
