import OneWay.Schedule.Basic

/-! Closing the gaps of a schedule: times keep their order and become 0, 1, 2 and so on. -/
namespace OneWay.Times

def rank (used : NodeSet) (time : Int) : Int := (used.filter (· < time)).size

def used (prepare measure : Times) : NodeSet := .ofList (prepare.known ++ measure.known)

def compress (prepare measure : Times) : Times × Times :=
  let ranked := fun (_ : Int) (time : Option Int) => time.map (rank (used prepare measure))
  (prepare.mapValues ranked, measure.mapValues ranked)

end OneWay.Times
