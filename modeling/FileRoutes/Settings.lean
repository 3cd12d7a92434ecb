import FileRoutes.FilePath

/-! Settings of a project: where its route files live, which files count as such, and which stems
mark the index and the layout of a page. -/

namespace FileRoutes

structure RouteSettings where
  apiDir : Text := "api".toList
  pagesDir : Text := "pages".toList
  extensions : List Text := ["rs".toList, "rsx".toList]
deriving DecidableEq, Repr

structure PageSettings where
  indexStem : Text := "index".toList
  layoutStem : Text := "layout".toList
deriving DecidableEq, Repr

structure Settings where
  routes : RouteSettings := {}
  pages : PageSettings := {}
deriving DecidableEq, Repr

namespace RouteSettings

/-- Whether a file name ends in one of the extensions. -/
def isRouteFile (settings : RouteSettings) (file : FilePath) : Bool :=
  match file.extension?.bind Utf8.decode? with
  | some extension => settings.extensions.contains extension
  | none => false

end RouteSettings

end FileRoutes
