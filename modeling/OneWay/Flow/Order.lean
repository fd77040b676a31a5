import OneWay.Flow.Dependency

/-! Orders in which every node of a dependency table comes after its members. Nodes come in batches:
first those without members, then, batch after batch, those whose last member has just come. -/
namespace OneWay.Dependency

def vertices (d : Dependency) : List Int :=
  (d.entries.flatMap fun (n, members) => n :: members.toList).eraseDups

def holders (d : Dependency) (n : Int) : List Int :=
  (d.entries.filter fun e => n ∈ e.2).map Prod.fst

def pending (d : Dependency) : Table Nat :=
  .ofList (d.vertices.map fun n => (n, ((d.get? n).getD ∅).size))

def arrive (state : Table Nat × List Int) (n : Int) : Table Nat × List Int :=
  let left := (state.1.get? n).getD 0 - 1
  (state.1.set n left, if left = 0 then state.2 ++ [n] else state.2)

def nextBatch (d : Dependency) (counts : Table Nat) (batch : List Int) : Table Nat × List Int :=
  (batch.flatMap d.holders).foldl arrive (counts, [])

def batches (d : Dependency) : Nat → Table Nat → List Int → List Int
  | 0, _, _ => []
  | limit + 1, counts, batch =>
      if batch.isEmpty then []
      else
        let (counts, next) := d.nextBatch counts batch
        batch ++ d.batches limit counts next

def order (d : Dependency) : Except Fault (List Int) :=
  let all := d.vertices
  let ready := all.filter fun n => ((d.get? n).getD ∅).isEmpty
  let found := d.batches all.length d.pending ready
  if found.length = all.length then .ok found else .error .cyclic

end OneWay.Dependency
