import LaserCutter.Proofs.Motion.Continuity
import LaserCutter.Toolpath

/-!
# The traversal of an item tree

A tree of items is driven in depth-first order: a group drives its children one after the other under
its own placement, a compound its paths (`Item.route_group`, `Item.route_compound`). So wherever a
part stands, what is driven before it and after it is known by its route alone, and a chain of routes
may be cut or nested at will (`Route.chain_append`, `Route.chain_flatMap`).
-/

namespace LaserCutter

namespace Route

theorem still_andThen (route : Route) : still.andThen route = route := by
  funext position
  simp only [andThen, still, bind, Except.bind, Leg.stay, List.nil_append]
  cases route position <;> rfl

theorem andThen_still (route : Route) : route.andThen still = route := by
  funext position
  simp only [andThen, still, bind, Except.bind, Leg.stay]
  cases route position <;> simp [pure, Except.pure]

theorem andThen_assoc (first next last : Route) :
    (first.andThen next).andThen last = first.andThen (next.andThen last) := by
  funext position
  simp only [andThen, bind, Except.bind]
  cases first position with
  | error fault => rfl
  | ok front =>
    cases driven : next front.stop with
    | error fault => simp [driven]
    | ok middle =>
      simp only [driven, pure, Except.pure]
      cases last middle.stop <;> simp

theorem chain_singleton (route : Route) : chain [route] = route := by
  rw [chain_cons, chain_nil, andThen_still]

theorem chain_append (front back : List Route) :
    chain (front ++ back) = (chain front).andThen (chain back) := by
  induction front with
  | nil => exact (still_andThen _).symm
  | cons route rest ih => rw [List.cons_append, chain_cons, chain_cons, ih, andThen_assoc]

/-- Driving several parts for each element is driving all of them. -/
theorem chain_flatMap {α : Type} (parts : α → List Route) (xs : List α) :
    chain (xs.flatMap parts) = chain (xs.map fun x => chain (parts x)) := by
  induction xs with
  | nil => rfl
  | cons x rest ih => rw [List.flatMap_cons, chain_append, List.map_cons, chain_cons, ih]

/-- Parts that are kept still may as well be sorted out beforehand. -/
theorem chain_filter {α : Type} (keep : α → Bool) (route : α → Route) (xs : List α) :
    chain (xs.map fun x => if keep x then route x else still) =
      chain ((xs.filter keep).map route) := by
  induction xs with
  | nil => rfl
  | cons x rest ih =>
    rw [List.map_cons, chain_cons, ih]
    split
    · rw [List.filter_cons_of_pos ‹_›, List.map_cons, chain_cons]
    · rw [List.filter_cons_of_neg ‹_›, still_andThen]

/-- A part that does nothing may as well be left out. -/
theorem chain_skip {route : Route} (idle : route = still) (front back : List Route) :
    chain (front ++ route :: back) = chain (front ++ back) := by
  rw [chain_append, chain_append, chain_cons, idle, still_andThen]

end Route

namespace Item

variable (reader : PictureReader) (pass : Pass) (parent placement : Affine)

theorem route_path (path : Path) :
    (Item.path path).route reader pass parent = (path.placed parent).route pass :=
  Route.chain_singleton _

theorem route_raster (image : Raster) :
    (Item.raster image).route reader pass parent = image.route reader pass parent :=
  Route.chain_singleton _

theorem route_compound (paths : List Path) :
    (Item.compound paths placement).route reader pass parent =
      Route.chain (paths.map fun path => (path.placed (parent.compose placement)).route pass) := by
  rw [Item.route, Item.leaves, List.map_map]
  rfl

/-- Items that stand side by side are driven one after the other. -/
theorem chain_leavesOf (items : List Item) :
    Route.chain ((leavesOf parent items).map (·.route reader pass)) =
      Route.chain (items.map (·.route reader pass parent)) := by
  induction items with
  | nil => rfl
  | cons item rest ih =>
    rw [leavesOf, List.map_append, Route.chain_append, ih, List.map_cons, Route.chain_cons]
    rfl

theorem route_group (children : List Item) :
    (Item.group children placement).route reader pass parent =
      Route.chain (children.map (·.route reader pass (parent.compose placement))) := by
  rw [Item.route, Item.leaves, chain_leavesOf]

end Item

end LaserCutter
