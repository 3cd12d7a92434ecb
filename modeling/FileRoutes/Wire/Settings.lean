import FileRoutes.Settings
import FileRoutes.Wire.Value

/-! Wire forms of settings, in which every field may be left out. -/

namespace FileRoutes

open Wire (Value)

namespace RouteSettings

def toWire (settings : RouteSettings) : Value :=
  .record [("api_dir", .text settings.apiDir), ("pages_dir", .text settings.pagesDir),
    ("extensions", .texts settings.extensions)]

def ofWire? (value : Value) : Option RouteSettings :=
  if value.isRecord then do
    let apiDir ← value.orDefault "api_dir" Value.text? ({} : RouteSettings).apiDir
    let pagesDir ← value.orDefault "pages_dir" Value.text? ({} : RouteSettings).pagesDir
    let extensions ←
      value.orDefault "extensions" (Value.list? Value.text?) ({} : RouteSettings).extensions
    return { apiDir, pagesDir, extensions }
  else none

end RouteSettings

namespace PageSettings

def toWire (settings : PageSettings) : Value :=
  .record [("index_stem", .text settings.indexStem), ("layout_stem", .text settings.layoutStem)]

def ofWire? (value : Value) : Option PageSettings :=
  if value.isRecord then do
    let indexStem ← value.orDefault "index_stem" Value.text? ({} : PageSettings).indexStem
    let layoutStem ← value.orDefault "layout_stem" Value.text? ({} : PageSettings).layoutStem
    return { indexStem, layoutStem }
  else none

end PageSettings

namespace Settings

def toWire (settings : Settings) : Value :=
  .record [("routes", settings.routes.toWire), ("nested", settings.pages.toWire)]

def ofWire? (value : Value) : Option Settings :=
  if value.isRecord then do
    let routes ← value.orDefault "routes" RouteSettings.ofWire? {}
    let pages ← value.orDefault "nested" PageSettings.ofWire? {}
    return { routes, pages }
  else none

end Settings

end FileRoutes
