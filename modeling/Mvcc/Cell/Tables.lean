import Mvcc.Cell.Partition

/-!
# Tables

A table is a named partition, created on first use.
-/

namespace Mvcc

structure Tables where
  regions : SortedMap String Partition

namespace Tables

def empty : Tables := ⟨.empty⟩

def region (tables : Tables) (name : String) : Partition :=
  (tables.regions.get? name).getD (.new name)

def put (tables : Tables) (name : String) (region : Partition) : Tables :=
  ⟨tables.regions.insert name region⟩

end Tables

end Mvcc
